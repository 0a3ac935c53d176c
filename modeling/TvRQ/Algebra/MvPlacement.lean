/-
# Solving in rows at their places

`L_invmult_inplace_p` and `U_invmult_inplace_p` find the rows of the unknowns
through an array of placements.  They do to these rows what the versions without
placements do to a matrix that consists of these rows alone, and nothing to the
other rows; and `LU_invmult` is the two of them on a copy of the right-hand side.
-/

import TvRQ.Algebra.M256vView
import TvRQ.Algebra.MvSolve

namespace TvRQ

open Imperative Heap Elimination Finset MvGen MvGenAll

/-! ## The out-of-place solver as a composition -/

/-- Copy the right-hand side to the places of the unknowns, clear the other rows and
solve in place. -/
def MvMatrix.luInvmultByPlaces {V σ E : Type} [MvGenAll V σ E] (LU : V) (rank : ℤ)
    (rowperm colperm : Array ℕ) (Y XOut : V) : Prog σ Unit := do
  forRange 0 (solveRank LU rank) fun i => do
    let ri ← readArray rowperm i
    let ci ← readArray colperm i
    copyRow Y ri XOut ci
  forRange (solveRank LU rank) (nRow XOut) fun i => do
    let ci ← readArray colperm i
    clearRow XOut ci
  lInvmultInplaceP LU (solveRank LU rank) XOut (some colperm)
  uInvmultInplaceP LU (solveRank LU rank) XOut (some colperm)

namespace HeapView

variable {V α E F : Type} [Field F] [Zero E] [One E] [MvGenAll V (Heap α) E] [HeapView V α E F]
  {LU X Y : V} {h g : Heap α} {B A S D : Table F} {rp cp placements : Array ℕ}
  {n rank : ℕ} {pl ρ κ : ℕ → ℕ}

/-! ## Gather, solve, scatter -/

/-- `placed` leaves in the rows of `X` at the places `pl` what `plain` leaves in the
rows of any view that starts with these rows, and keeps the other rows of `X`. -/
def SolvesPlaced (LU : V) (B : Table F) (n : ℕ) (pl : ℕ → ℕ) (X : V) (A : Table F) (h : Heap α)
    (placed : Prog (Heap α) Unit) (plain : V → Prog (Heap α) Unit) : Prop :=
  Ends placed h fun _ h' => ∃ W, Holds X h' W ∧ AgreeOff (cells X) h h' ∧
    (∀ k, (∀ i < n, pl i ≠ k) → W k = A k) ∧
      ∀ {X₀ : V} {g : Heap α} {A₀ : Table F}, Holds LU g B → Holds X₀ g A₀ →
        Disjoint (cells X₀) (cells LU) → n ≤ nRow X₀ → nCol X₀ = nCol X →
          (∀ i < n, ∀ c < nCol X, A₀ i c = A (pl i) c) →
            Ends (plain X₀) g fun _ g' => ∃ W₀, Holds X₀ g' W₀ ∧
              ∀ i < n, ∀ c < nCol X, W (pl i) c = W₀ i c

section Substitute

variable [CharP F 2]

theorem lInvmultInplaceP_solvesPlaced (hLU : Holds LU h B) (hX : Holds X h A)
    (hdisj : Disjoint (cells X) (cells LU)) (hrow : rank ≤ nRow LU) (hcol : rank ≤ nCol LU)
    (hpl : Placement X pl rank) (hget : ∀ i < rank, placements[i]? = some (pl i)) :
    SolvesPlaced LU B rank pl X A h (lInvmultInplaceP LU rank X (some placements))
      (lInvmultInplace LU rank) := by
  have hplaces : Places (some placements) rank pl := hget
  apply (lInvmultInplaceP_ends hLU hX hdisj hplaces hrow hcol hpl.lt hpl.inj).mono
  rintro _ h' ⟨Z, hZ, hXZ, hagree⟩
  refine ⟨Z, hXZ, hagree, hZ.frame, fun hLU₀ hX₀ hdisj₀ hrow₀ _ hstart => ?_⟩
  apply (lInvmultInplaceP_ends hLU₀ hX₀ hdisj₀ (Places.none_id rank) hrow hcol
    (fun i hi => hi.trans_le hrow₀) fun _ _ _ _ heq => heq).mono
  rintro _ g' ⟨Z₀, hZ₀, hXZ₀, -⟩
  exact ⟨Z₀, hXZ₀, fun i hi c hc =>
    hZ.places_eq hZ₀ (fun j hj => (hstart j hj c hc).symm) i hi⟩

theorem uInvmultInplaceP_solvesPlaced (hLU : Holds LU h B) (hX : Holds X h A)
    (hdisj : Disjoint (cells X) (cells LU)) (hrow : rank ≤ nRow LU) (hcol : rank ≤ nCol LU)
    (hdiag : ∀ i < rank, B i i ≠ 0) (hpl : Placement X pl (nCol LU))
    (hget : ∀ i < nCol LU, placements[i]? = some (pl i)) :
    SolvesPlaced LU B (nCol LU) pl X A h (uInvmultInplaceP LU rank X (some placements))
      (uInvmultInplace LU rank) := by
  have hplaces : Places (some placements) (nCol LU) pl := hget
  apply (uInvmultInplaceP_ends hLU hX hdisj hplaces hrow hcol hpl.lt hpl.inj hdiag).mono
  rintro _ h' ⟨W, hW, hXW, hagree⟩
  refine ⟨W, hXW, hagree, fun k hk => hW.frame k fun i _ hi => hk i (hi.trans_le hcol),
    fun hLU₀ hX₀ hdisj₀ hrow₀ _ hstart => ?_⟩
  apply (uInvmultInplaceP_ends hLU₀ hX₀ hdisj₀ (Places.none_id (nCol LU)) hrow hcol
    (fun i hi => hi.trans_le hrow₀) (fun _ _ _ _ heq => heq) hdiag).mono
  rintro _ g' ⟨W₀, hW₀, hXW₀, -⟩
  exact ⟨W₀, hXW₀, fun i hi c hc => hW.places_eq hW₀ hpl.inj (fun _ _ _ _ heq => heq) hcol hdiag
    (fun j hj => (hstart j hj c hc).symm) i hi⟩

/-! ## Out of place -/

omit [Zero E] [One E] [CharP F 2] in
/-- As many places as there are rows are all rows. -/
theorem Placement.exists_eq (hκ : Placement X κ n) (hn : n = nRow X) {k : ℕ} (hk : k < nRow X) :
    ∃ i < n, κ i = k := by
  have hsub : (range n).image κ ⊆ range (nRow X) := by
    intro j hj
    obtain ⟨i, hi, rfl⟩ := mem_image.mp hj
    exact mem_range.mpr (hκ.lt i (mem_range.mp hi))
  have hcard : ((range n).image κ).card = n := by
    rw [card_image_of_injOn fun i hi j hj heq => hκ.inj i (mem_range.mp hi) j (mem_range.mp hj) heq,
      card_range]
  have himage : (range n).image κ = range (nRow X) :=
    eq_of_subset_of_card_le hsub (by rw [hcard, card_range, hn])
  obtain ⟨i, hi, heq⟩ := mem_image.mp (himage.symm ▸ mem_range.mpr hk)
  exact ⟨i, mem_range.mp hi, heq⟩

theorem luInvmultByPlaces_ends {r : ℤ} (hLU : Holds LU h B) (hY : Holds Y h S) (hX : Holds X h A)
    (hdisjLU : Disjoint (cells X) (cells LU)) (hdisjY : Disjoint (cells X) (cells Y))
    (hdim : nCol LU = nRow X) (hcol : nCol X = nCol Y) (hrankr : solveRank LU r ≤ nRow LU)
    (hrankc : solveRank LU r ≤ nCol LU) (hρ : ∀ i < solveRank LU r, ρ i < nRow Y)
    (hrp : ∀ i < solveRank LU r, rp[i]? = some (ρ i)) (hκ : Placement X κ (nCol LU))
    (hcp : ∀ i < nCol LU, cp[i]? = some (κ i)) (hdiag : ∀ i < solveRank LU r, B i i ≠ 0) :
    Ends (MvMatrix.luInvmultByPlaces LU r rp cp Y X) h fun _ h' => ∃ A' Z W,
      (∀ i < solveRank LU r, A' (κ i) = S (ρ i)) ∧
        (∀ j, solveRank LU r ≤ j → j < nCol LU → A' (κ j) = 0) ∧
          ForwardSolved B (solveRank LU r) κ A' Z ∧
            BackSolved B 0 (solveRank LU r) (nCol LU) κ Z W ∧ Holds X h' W ∧
              AgreeOff (cells X) h h' := by
  unfold MvMatrix.luInvmultByPlaces
  have hplaces : Places (some cp) (nCol LU) κ := hcp
  have hplacesL : Places (some cp) (solveRank LU r) κ := fun i hi => hcp i (hi.trans_le hrankc)
  have hstart : Placed X κ (nCol LU) h h fun k => A (κ k) :=
    ⟨A, hX, fun _ _ => rfl, AgreeOff.refl _ h⟩
  apply (hstart.copyRows_ends hκ hY hdisjY hcol.symm hcp hrankc hρ hrp).bind
  rintro _ g₁ ⟨D, hD, hcopied⟩
  apply (hD.clearRows_ends hκ hcp (hdim ▸ hrankc) hdim.ge).bind
  rintro _ g₂ ⟨D', ⟨A', hA', hplaced, hagree⟩, hkeep, hzero⟩
  apply (lInvmultInplaceP_ends (holds_agreeOff hLU hagree hdisjLU) hA' hdisjLU hplacesL hrankr
    hrankc (fun i hi => hκ.lt i (hi.trans_le hrankc)) fun i hi j hj heq =>
      hκ.inj i (hi.trans_le hrankc) j (hj.trans_le hrankc) heq).bind
  rintro _ g₃ ⟨Z, hZ, hXZ, hagree'⟩
  apply (uInvmultInplaceP_ends (holds_agreeOff hLU (hagree.trans hagree') hdisjLU) hXZ hdisjLU
    hplaces hrankr hrankc hκ.lt hκ.inj hdiag).mono
  rintro _ g₄ ⟨W, hW, hXW, hagree''⟩
  refine ⟨A', Z, W, fun i hi => ?_, fun j hj hjc => ?_, hZ, hW, hXW,
    hagree.trans (hagree'.trans hagree'')⟩
  · rw [hplaced i (hi.trans_le hrankc), hkeep i hi, hcopied i hi]
  · rw [hplaced j hjc, hzero j hj (hjc.trans_eq hdim)]

/-- The out-of-place solver and the composition leave the same in the view for the
unknowns, and neither touches another cell. -/
theorem luInvmult_eq_byPlaces {r : ℤ} (hLU : Holds LU h B) (hY : Holds Y h S) (hX : Holds X h A)
    (hdisjLU : Disjoint (cells X) (cells LU)) (hdisjY : Disjoint (cells X) (cells Y))
    (hdim : nCol LU = nRow X) (hrow : nRow LU = nRow Y) (hcol : nCol X = nCol Y)
    (hrankr : solveRank LU r ≤ nRow LU) (hrankc : solveRank LU r ≤ nCol LU)
    (hρ : ∀ i < solveRank LU r, ρ i < nRow Y) (hrp : ∀ i < solveRank LU r, rp[i]? = some (ρ i))
    (hκ : Placement X κ (nCol LU)) (hcp : ∀ i < nCol LU, cp[i]? = some (κ i))
    (hdiag : ∀ i < solveRank LU r, B i i ≠ 0) :
    Ends (MvMatrix.luInvmult LU r rp cp Y X) h fun _ h' =>
      Ends (MvMatrix.luInvmultByPlaces LU r rp cp Y X) h fun _ h'' => ∃ W,
        Holds X h' W ∧ Holds X h'' W ∧ AgreeOff (cells X) h h' ∧ AgreeOff (cells X) h h'' := by
  apply (luInvmult_ends hLU hY hX hdisjLU hdisjY hdim hrow hcol hrankr hrankc hρ hrp hκ hcp
    hdiag).mono
  rintro _ h' ⟨Z₀, W₀, hZ₀, hW₀, htail₀, hXW₀, hagree₀⟩
  apply (luInvmultByPlaces_ends hLU hY hX hdisjLU hdisjY hdim hcol hrankr hrankc hρ hrp hκ hcp
    hdiag).mono
  rintro _ h'' ⟨A', Z, W, hcopied, hcleared, hZ, hW, hXW, hagree⟩
  have hforward : ∀ c, ∀ i < solveRank LU r, Z (κ i) c = Z₀ i c := fun c =>
    forward_unique (fun i hi => hZ.solve i hi c)
      fun i hi => by rw [hZ₀ i hi c, hcopied i hi]
  have htail : ∀ j, solveRank LU r ≤ j → j < nCol LU → W (κ j) = W₀ (κ j) := by
    intro j hj hjc
    have hkept : Z (κ j) = A' (κ j) := hZ.frame (κ j) fun i hi heq =>
      (hi.trans_le hj).ne (hκ.inj i (hi.trans_le hrankc) j hjc heq)
    rw [hW.behind hκ.inj hj hjc, hkept, hcleared j hj hjc, htail₀ j hj hjc]
  have hback : ∀ c, ∀ i < nCol LU, W (κ i) c = W₀ (κ i) c := fun c =>
    back_unique_of_tail hdiag (fun j hj hjc => congrFun (htail j hj hjc) c)
      (fun i hi => hW.solve i (Nat.zero_le i) hi c)
      fun i hi => by rw [hW₀ i hi c, hforward c i hi]
  refine ⟨W, holds_congr hXW₀ fun k hk c _ => ?_, hXW, hagree₀, hagree⟩
  obtain ⟨i, hi, rfl⟩ := hκ.exists_eq hdim hk
  exact (hback c i hi).symm

/-- Solving with placements is gathering the placed rows, solving, and scattering them
again; the out-of-place solver does this with the permutation of the columns. -/
theorem placements_eq_gather (hLU : Holds LU h B) (hX : Holds X h A)
    (hdisj : Disjoint (cells X) (cells LU)) (hrow : rank ≤ nRow LU) (hcol : rank ≤ nCol LU)
    (hdiag : ∀ i < rank, B i i ≠ 0) :
    (∀ {pl : ℕ → ℕ} {placements : Array ℕ}, Placement X pl rank →
      (∀ i < rank, placements[i]? = some (pl i)) →
        SolvesPlaced LU B rank pl X A h (lInvmultInplaceP LU rank X (some placements))
          (lInvmultInplace LU rank)) ∧
    (∀ {pl : ℕ → ℕ} {placements : Array ℕ}, Placement X pl (nCol LU) →
      (∀ i < nCol LU, placements[i]? = some (pl i)) →
        SolvesPlaced LU B (nCol LU) pl X A h (uInvmultInplaceP LU rank X (some placements))
          (uInvmultInplace LU rank)) ∧
    ∀ {Y : V} {S : Table F} {r : ℤ} {rp cp : Array ℕ} {ρ κ : ℕ → ℕ}, Holds Y h S →
      Disjoint (cells X) (cells Y) → nCol LU = nRow X → nRow LU = nRow Y → nCol X = nCol Y →
        solveRank LU r = rank → (∀ i < rank, ρ i < nRow Y) → (∀ i < rank, rp[i]? = some (ρ i)) →
          Placement X κ (nCol LU) → (∀ i < nCol LU, cp[i]? = some (κ i)) →
            Ends (MvMatrix.luInvmult LU r rp cp Y X) h fun _ h' =>
              Ends (MvMatrix.luInvmultByPlaces LU r rp cp Y X) h fun _ h'' => ∃ W,
                Holds X h' W ∧ Holds X h'' W ∧ AgreeOff (cells X) h h' ∧
                  AgreeOff (cells X) h h'' := by
  refine ⟨fun hpl hget => ?_, fun hpl hget => ?_, ?_⟩
  · exact lInvmultInplaceP_solvesPlaced hLU hX hdisj hrow hcol hpl hget
  · exact uInvmultInplaceP_solvesPlaced hLU hX hdisj hrow hcol hdiag hpl hget
  · intro Y S r rp cp ρ κ hY hdisjY hdim hrowY hcolY hrank hρ hrp hκ hcp
    subst hrank
    exact luInvmult_eq_byPlaces hLU hY hX hdisj hdisjY hdim hrowY hcolY hrow hcol hρ hrp hκ hcp
      hdiag

end Substitute

section Rotated

open M256v

/-- The factors, the unknowns, a right-hand side, and the unknowns in the order of the
placements 2, 0, 1. -/
def placedHeap : Heap UInt8 := ⟨#[#[2, 1, 3, 4, 5, 6], #[7, 8, 9], #[10, 11], #[9, 7, 8]]⟩

/-- Solving for unknowns that are stored in another order. -/
theorem placements_eq_gather_rotated :
    Ends (lInvmultInplaceP (make 2 3 ⟨0, 0⟩) 2 (make 3 1 ⟨1, 0⟩) (some #[2, 0, 1])) placedHeap
      (fun _ h' => ∃ W, (make 3 1 ⟨1, 0⟩).Holds h' W ∧ W 1 = rowMajor 1 #[7, 8, 9] 1 ∧
        Ends (lInvmultInplace (make 2 3 ⟨0, 0⟩) 2 (make 3 1 ⟨3, 0⟩)) placedHeap fun _ g' =>
          ∃ W₀, (make 3 1 ⟨3, 0⟩).Holds g' W₀ ∧ ∀ i < 2, W ((i + 2) % 3) 0 = W₀ i 0) ∧
    Ends (uInvmultInplaceP (make 2 3 ⟨0, 0⟩) 2 (make 3 1 ⟨1, 0⟩) (some #[2, 0, 1])) placedHeap
      (fun _ h' => ∃ W, (make 3 1 ⟨1, 0⟩).Holds h' W ∧
        Ends (uInvmultInplace (make 2 3 ⟨0, 0⟩) 2 (make 3 1 ⟨3, 0⟩)) placedHeap fun _ g' =>
          ∃ W₀, (make 3 1 ⟨3, 0⟩).Holds g' W₀ ∧ ∀ i < 3, W ((i + 2) % 3) 0 = W₀ i 0) ∧
    Ends (MvMatrix.luInvmult (make 2 3 ⟨0, 0⟩) 2 #[1, 0] #[2, 0, 1] (make 2 1 ⟨2, 0⟩)
      (make 3 1 ⟨1, 0⟩)) placedHeap fun _ h' =>
        Ends (MvMatrix.luInvmultByPlaces (make 2 3 ⟨0, 0⟩) 2 #[1, 0] #[2, 0, 1]
          (make 2 1 ⟨2, 0⟩) (make 3 1 ⟨1, 0⟩)) placedHeap fun _ h'' =>
            ∃ W, (make 3 1 ⟨1, 0⟩).Holds h' W ∧ (make 3 1 ⟨1, 0⟩).Holds h'' W := by
  have hLU : (make 2 3 ⟨0, 0⟩).Holds placedHeap (rowMajor 3 #[2, 1, 3, 4, 5, 6]) :=
    holds_make rfl (by decide)
  have hX : (make 3 1 ⟨1, 0⟩).Holds placedHeap (rowMajor 1 #[7, 8, 9]) :=
    holds_make rfl (by decide)
  have hY : (make 2 1 ⟨2, 0⟩).Holds placedHeap (rowMajor 1 #[10, 11]) :=
    holds_make rfl (by decide)
  have hX₀ : (make 3 1 ⟨3, 0⟩).Holds placedHeap (rowMajor 1 #[9, 7, 8]) :=
    holds_make rfl (by decide)
  have hgathered : ∀ i < 3, ∀ c < 1,
      rowMajor 1 #[9, 7, 8] i c = rowMajor 1 #[7, 8, 9] ((i + 2) % 3) c := by decide
  have hpl : ∀ n ≤ 3, Placement (make 3 1 ⟨1, 0⟩) (fun i => (i + 2) % 3) n := fun n hn =>
    ⟨fun i _ => Nat.mod_lt _ (by decide), fun i hi j hj heq => by
      have hmod : (i + 2) % 3 = (j + 2) % 3 := heq
      omega⟩
  have hget : ∀ i < 3, #[2, 0, 1][i]? = some ((i + 2) % 3) := by decide
  have hdisj : Disjoint (cells (make 3 1 ⟨1, 0⟩)) (cells (make 2 3 ⟨0, 0⟩)) :=
    disjoint_cells_of_blk (show 1 ≠ 0 by decide)
  have hdisj₀ : Disjoint (cells (make 3 1 ⟨3, 0⟩)) (cells (make 2 3 ⟨0, 0⟩)) :=
    disjoint_cells_of_blk (show 3 ≠ 0 by decide)
  obtain ⟨hlower, hupper, hsolve⟩ := placements_eq_gather hLU hX hdisj
    (show 2 ≤ 2 by decide) (show 2 ≤ 3 by decide) (by decide)
  refine ⟨?_, ?_, ?_⟩
  · apply (hlower (hpl 2 (by decide)) fun i hi => hget i (by omega)).mono
    rintro _ h' ⟨W, hW, -, hkeep, hplain⟩
    refine ⟨W, hW, hkeep 1 (by decide), ?_⟩
    exact (hplain hLU hX₀ hdisj₀ (show 2 ≤ 3 by decide) rfl
      fun i hi c hc => hgathered i (by omega) c hc).mono fun _ g' ⟨W₀, hW₀, heq⟩ =>
        ⟨W₀, hW₀, fun i hi => heq i hi 0 (by decide)⟩
  · apply (hupper (hpl 3 le_rfl) hget).mono
    rintro _ h' ⟨W, hW, -, -, hplain⟩
    refine ⟨W, hW, ?_⟩
    exact (hplain hLU hX₀ hdisj₀ le_rfl rfl hgathered).mono fun _ g' ⟨W₀, hW₀, heq⟩ =>
      ⟨W₀, hW₀, fun i hi => heq i hi 0 (by decide)⟩
  · apply (hsolve hY (disjoint_cells_of_blk (show 1 ≠ 2 by decide)) rfl rfl rfl rfl
      (show ∀ i < 2, 1 - i < 2 by decide) (by decide) (hpl 3 le_rfl) hget).mono
    rintro _ h' hplaces
    apply hplaces.mono
    rintro _ h'' ⟨W, hW, hW', -⟩
    exact ⟨W, hW, hW'⟩

end Rotated

end HeapView

end TvRQ
