/-
# Solving with the factors

`LU_invmult` and `LU_invmult_inplace` for all kinds of views.  Both are forward
and back substitution on the rows of a view that shares no cell with the
factors.  The placements say where the rows of the unknowns are.
-/

import Mathlib.Algebra.CharP.Two
import TvRQ.Algebra.MvFactors

namespace TvRQ

open Imperative Heap Elimination Finset MvGen MvGenAll

/-- The placements send every index below `n` to its row. -/
def Places (placements : Option (Array ℕ)) (n : ℕ) (pl : ℕ → ℕ) : Prop :=
  match placements with
  | some xs => ∀ i < n, xs[i]? = some (pl i)
  | none => ∀ i < n, i = pl i

namespace Places

variable {placements : Option (Array ℕ)} {n : ℕ} {pl : ℕ → ℕ} {σ : Type} {s : σ}

theorem none_id (n : ℕ) : Places none n id := fun _ _ => rfl

theorem ends_placement (h : Places placements n pl) {i : ℕ} (hi : i < n) {Q : ℕ → σ → Prop} :
    Ends (MvGen.placement placements i) s Q ↔ Q (pl i) s := by
  cases placements with
  | some xs =>
      have hget : xs[i]? = some (pl i) := h i hi
      simp [MvGen.placement, hget]
  | none =>
      have hget : i = pl i := h i hi
      simp [MvGen.placement, ← hget]

end Places

namespace HeapView

variable {V α E F : Type} [Field F] [Zero E] [One E] [MvGenAll V (Heap α) E] [HeapView V α E F]
  {LU X Y M : V} {h : Heap α} {B A S : Table F} {placements : Option (Array ℕ)}
  {n rank : ℕ} {pl ρ κ : ℕ → ℕ} {π τ : Equiv.Perm ℕ}

/-! ## The substitutions -/

/-- The inner loop of both substitutions. -/
theorem addRows_ends (hLU : Holds LU h B) (hX : Holds X h A)
    (hdisj : Disjoint (cells X) (cells LU)) (hpl : Places placements n pl) {i lo hi : ℕ}
    (hin : hi ≤ n) (hrow : i < nRow LU) (hcol : hi ≤ nCol LU) (ht : pl i < nRow X)
    (hrows : ∀ j, lo ≤ j → j < hi → pl j < nRow X ∧ pl j ≠ pl i) :
    Ends (forRange lo hi fun j => do
      let pj ← placement placements j
      let a ← getEl LU i j
      multaddRow X pj a X (pl i)) h fun _ h' =>
        Holds X h' (A.addRow (pl i) fun c => ∑ j ∈ Ico lo hi, B i j * A (pl j) c) ∧
          AgreeOff (cells X) h h' := by
  apply sumUp_ends (R := fun g D => Holds X g D ∧ AgreeOff (cells X) h g)
    (w := fun j c => B i j * A (pl j) c)
  · rintro j g D hlo hj hoff ⟨hD, hagree⟩
    obtain ⟨hpj, hne⟩ := hrows j hlo hj
    rw [ends_bind, hpl.ends_placement (hj.trans_le hin), ends_bind,
      getEl_iff (holds_agreeOff hLU hagree hdisj) hrow (hj.trans_le hcol)]
    apply (multaddRow_ends hD hD (Or.inl rfl) rfl hpj ht (B i j)).mono
    rintro _ g' ⟨hD', hagree'⟩
    rw [Table.multaddRowFrom_zero, hoff _ hne] at hD'
    exact ⟨hD', hagree.trans hagree'⟩
  · exact ⟨hX, AgreeOff.refl _ h⟩

section Substitute

variable [CharP F 2]

/-- Forward substitution. -/
theorem lInvmultInplaceP_ends (hLU : Holds LU h B) (hX : Holds X h A)
    (hdisj : Disjoint (cells X) (cells LU)) (hpl : Places placements rank pl)
    (hrow : rank ≤ nRow LU) (hcol : rank ≤ nCol LU) (hlt : ∀ i < rank, pl i < nRow X)
    (hinj : ∀ i < rank, ∀ j < rank, pl i = pl j → i = j) :
    Ends (lInvmultInplaceP LU rank X placements) h fun _ h' =>
      ∃ Z, ForwardSolved B rank pl A Z ∧ Holds X h' Z ∧ AgreeOff (cells X) h h' := by
  unfold lInvmultInplaceP
  refine forRange_ends (fun k h' =>
    ∃ Z, ForwardSolved B k pl A Z ∧ Holds X h' Z ∧ AgreeOff (cells X) h h') (Nat.zero_le _)
    ?_ ⟨A, forwardSolved_zero B pl A, hX, AgreeOff.refl _ h⟩
  rintro k h₁ - hk ⟨Z, hZ, hXZ, hagree⟩
  have hne : ∀ i < k, pl i ≠ pl k := fun i hi heq =>
    hi.ne (hinj i (hi.trans hk) k hk heq)
  rw [ends_bind, hpl.ends_placement hk]
  apply (addRows_ends (holds_agreeOff hLU hagree hdisj) hXZ hdisj hpl hk.le (hk.trans_le hrow)
    (hk.le.trans hcol) (hlt k hk) fun j _ hj => ⟨hlt j (hj.trans hk), hne j hj⟩).mono
  rintro _ h₂ ⟨hXZ', hagree'⟩
  refine ⟨_, hZ.step hne, holds_congr hXZ' fun r _ c _ => ?_, hagree.trans hagree'⟩
  simp only [Table.addRow, CharTwo.sub_eq_add, range_eq_Ico]

/-- Back substitution. -/
theorem uInvmultInplaceP_ends (hLU : Holds LU h B) (hX : Holds X h A)
    (hdisj : Disjoint (cells X) (cells LU)) (hpl : Places placements (nCol LU) pl)
    (hrow : rank ≤ nRow LU) (hcol : rank ≤ nCol LU) (hlt : ∀ i < nCol LU, pl i < nRow X)
    (hinj : ∀ i < nCol LU, ∀ j < nCol LU, pl i = pl j → i = j)
    (hdiag : ∀ i < rank, B i i ≠ 0) :
    Ends (uInvmultInplaceP LU rank X placements) h fun _ h' =>
      ∃ W, BackSolved B 0 rank (nCol LU) pl A W ∧ Holds X h' W ∧ AgreeOff (cells X) h h' := by
  unfold uInvmultInplaceP
  refine forDown_ends (fun k h' =>
    ∃ W, BackSolved B k rank (nCol LU) pl A W ∧ Holds X h' W ∧ AgreeOff (cells X) h h')
    (Nat.zero_le _) ?_ ⟨A, backSolved_self B rank (nCol LU) pl A, hX, AgreeOff.refl _ h⟩
  rintro k h₁ - hk ⟨W, hW, hXW, hagree⟩
  have hkm : k < nCol LU := hk.trans_le hcol
  have hne : ∀ j, k < j → j < nCol LU → pl j ≠ pl k := fun j hkj hj heq =>
    hkj.ne' (hinj j hj k hkm heq)
  rw [ends_bind, hpl.ends_placement hkm]
  apply (addRows_ends (holds_agreeOff hLU hagree hdisj) hXW hdisj hpl le_rfl (hk.trans_le hrow)
    le_rfl (hlt k hkm) fun j hkj hj => ⟨hlt j hj, hne j hkj hj⟩).bind
  rintro _ h₂ ⟨hXW', hagree'⟩
  rw [ends_bind, getEl_iff (holds_agreeOff hLU (hagree.trans hagree') hdisj) (hk.trans_le hrow) hkm,
    ends_bind, ends_embed]
  refine ⟨_, finv_eq (hdiag k hk), ?_⟩
  apply (multRow_ends hXW' (hlt k hkm) (B k k)⁻¹).mono
  rintro _ h₃ ⟨hXW'', hagree''⟩
  refine ⟨_, hW.step hk hcol (hdiag k hk) hne, holds_congr hXW'' fun r _ c _ => ?_,
    hagree.trans (hagree'.trans hagree'')⟩
  by_cases hr : r = pl k
  · simp only [Table.multRow, Table.addRow, hr, if_true, CharTwo.sub_eq_add]
  · simp only [Table.multRow, Table.addRow, hr, if_false]

end Substitute

/-! ## Out of place -/

/-- The rows of the view for the unknowns `Z` before index `k` are those of
forward substitution with the right-hand side `Y`. -/
def Forward (B : Table F) (k : ℕ) (Y Z : Table F) : Prop :=
  ∀ i < k, ∀ c, Z i c + ∑ j ∈ range i, B i j * Z j c = Y i c

/-- One row of forward substitution, from the row that was copied to its place. -/
theorem Forward.step [CharP F 2] {Y Z Z' : Table F} {k : ℕ} (hZ : Forward B k Y Z)
    (hkeep : ∀ i < k, Z' i = Z i)
    (hrow : ∀ c, Z' k c = Y k c + ∑ j ∈ range k, B k j * Z j c) : Forward B (k + 1) Y Z' := by
  intro i hi c
  have hsum : ∑ j ∈ range i, B i j * Z' j c = ∑ j ∈ range i, B i j * Z j c := by
    apply sum_congr rfl
    intro j hj
    rw [hkeep j ((mem_range.mp hj).trans_le (Nat.le_of_lt_succ hi))]
  rw [hsum]
  rcases Nat.lt_succ_iff_lt_or_eq.mp hi with hlt | rfl
  · rw [hkeep i hlt, hZ i hlt c]
  · rw [hrow c, CharTwo.add_cancel_right]

section OutOfPlace

variable {g : Heap α} {D : Table F} {rp cp : Array ℕ} {k : ℕ}

/-- Clearing rows at their places. -/
theorem Placed.clearRows_ends {lo hi : ℕ} (hκ : Placement X κ n) (hD : Placed X κ n h g D)
    (hcp : ∀ i < n, cp[i]? = some (κ i)) (hlo : lo ≤ hi) (hhi : hi ≤ n) :
    Ends (forRange lo hi fun i => do
      let ci ← readArray cp i
      clearRow X ci) g fun _ g' => ∃ D', Placed X κ n h g' D' ∧
        (∀ j < lo, D' j = D j) ∧ ∀ j, lo ≤ j → j < hi → D' j = 0 := by
  refine forRange_ends (fun k g' => ∃ D', Placed X κ n h g' D' ∧
    (∀ j < lo, D' j = D j) ∧ ∀ j, lo ≤ j → j < k → D' j = 0)
    hlo ?_ ⟨D, hD, fun _ _ => rfl, fun j hj hjlo => absurd hj (not_le.mpr hjlo)⟩
  rintro k g₁ hlok hk ⟨D', hD', hkeep, hzero⟩
  have hkn : k < n := hk.trans_le hhi
  have hother : ∀ j ≠ k, D'.clearRow k j = D' j := fun j hj => funext fun c => if_neg hj
  rw [ends_bind, ends_readArray]
  refine ⟨κ k, hcp k hkn, ?_⟩
  apply (hD'.clearRow_ends hκ hkn).mono
  intro _ g₂ hcleared
  refine ⟨_, hcleared, fun j hj => ?_, fun j hj hjk => ?_⟩
  · rw [hother j (hj.trans_le hlok).ne, hkeep j hj]
  · rcases Nat.lt_succ_iff_lt_or_eq.mp hjk with hlt | rfl
    · rw [hother j hlt.ne, hzero j hj hlt]
    · exact funext fun c => if_pos rfl

/-- Copying rows to their places. -/
theorem Placed.copyRows_ends {m : ℕ} (hκ : Placement X κ n) (hD : Placed X κ n h g D)
    (hY : Holds Y h S) (hdisj : Disjoint (cells X) (cells Y)) (hcol : nCol Y = nCol X)
    (hcp : ∀ i < n, cp[i]? = some (κ i)) (hmn : m ≤ n) (hρ : ∀ i < m, ρ i < nRow Y)
    (hrp : ∀ i < m, rp[i]? = some (ρ i)) :
    Ends (forRange 0 m fun i => do
      let ri ← readArray rp i
      let ci ← readArray cp i
      copyRow Y ri X ci) g fun _ g' => ∃ D', Placed X κ n h g' D' ∧ ∀ j < m, D' j = S (ρ j) := by
  refine forRange_ends (fun k g' => ∃ D', Placed X κ n h g' D' ∧ ∀ j < k, D' j = S (ρ j))
    (Nat.zero_le m) ?_ ⟨D, hD, fun j hj => absurd hj (Nat.not_lt_zero j)⟩
  rintro k g₁ - hk ⟨D', hD', hcopied⟩
  have hkn : k < n := hk.trans_le hmn
  rw [ends_bind, ends_readArray]
  refine ⟨ρ k, hrp k hk, ?_⟩
  rw [ends_bind, ends_readArray]
  refine ⟨κ k, hcp k hkn, ?_⟩
  apply (hD'.copyRowOf_ends hκ hkn hY hdisj hcol (hρ k hk)).mono
  intro _ g₂ hcopy
  refine ⟨_, hcopy, fun j hj => funext fun c => ?_⟩
  rcases Nat.lt_succ_iff_lt_or_eq.mp hj with hlt | rfl
  · rw [Table.copyRow, if_neg hlt.ne, hcopied j hlt]
  · exact if_pos rfl

/-- The inner loop of forward substitution, right after a row was copied to its
place. -/
theorem Placed.forwardRow_ends (hLU : Holds LU h B) (hdisjLU : Disjoint (cells X) (cells LU))
    (hκ : Placement X κ (nCol LU)) (hcp : ∀ i < nCol LU, cp[i]? = some (κ i))
    (hkr : k < nRow LU) (hkc : k < nCol LU) (hD : Placed X κ (nCol LU) h g D) :
    Ends (forRange 0 k fun j => do
      let cj ← readArray cp j
      let a ← getEl LU k j
      multaddRow X cj a X (κ k)) g fun _ g' =>
        Placed X κ (nCol LU) h g' (D.addRow k fun c => ∑ j ∈ Ico 0 k, B k j * D j c) := by
  apply sumUp_ends (R := fun g' D => Placed X κ (nCol LU) h g' D) (i := k)
    (w := fun j c => B k j * D j c) ?_ hD
  intro j g₁ D₁ _ hj hoff hD₁
  have hjc : j < nCol LU := hj.trans hkc
  rw [ends_bind, ends_readArray]
  refine ⟨κ j, hcp j hjc, ?_⟩
  rw [ends_bind, getEl_iff (hD₁.holds_of_disjoint hLU hdisjLU) hkr hjc, ← hoff j hj.ne]
  exact hD₁.addRow_ends hκ hkc hjc (B k j)

/-- Forward substitution into the view for the unknowns, whose rows from `rank`
on stay as they are. -/
theorem Placed.forward_ends [CharP F 2] (hLU : Holds LU h B) (hY : Holds Y h S)
    (hdisjLU : Disjoint (cells X) (cells LU)) (hdisjY : Disjoint (cells X) (cells Y))
    (hcol : nCol Y = nCol X) (hρ : ∀ i < rank, ρ i < nRow Y)
    (hrp : ∀ i < rank, rp[i]? = some (ρ i)) (hκ : Placement X κ (nCol LU))
    (hcp : ∀ i < nCol LU, cp[i]? = some (κ i)) (hrow : rank ≤ nRow LU) (hrank : rank ≤ nCol LU)
    (hD : Placed X κ (nCol LU) h g D) :
    Ends (forRange 0 rank fun i => do
      let ri ← readArray rp i
      let ci ← readArray cp i
      copyRow Y ri X ci
      forRange 0 i fun j => do
        let cj ← readArray cp j
        let a ← getEl LU i j
        multaddRow X cj a X ci) g fun _ g' => ∃ Z, Placed X κ (nCol LU) h g' Z ∧
          Forward B rank (fun i => S (ρ i)) Z ∧ ∀ j, rank ≤ j → Z j = D j := by
  refine forRange_ends (fun k g' => ∃ Z, Placed X κ (nCol LU) h g' Z ∧
    Forward B k (fun i => S (ρ i)) Z ∧ ∀ j, rank ≤ j → Z j = D j) (Nat.zero_le _) ?_
    ⟨D, hD, fun i hi => absurd hi (Nat.not_lt_zero i), fun _ _ => rfl⟩
  rintro k g₁ - hk ⟨Z, hZ, hsolved, hkeep⟩
  have hkr : k < nRow LU := hk.trans_le hrow
  have hkc : k < nCol LU := hk.trans_le hrank
  have hcopied : ∀ j, j ≠ k → Table.copyRow S (ρ k) Z k j = Z j := fun j hj =>
    funext fun c => if_neg hj
  rw [ends_bind, ends_readArray]
  refine ⟨ρ k, hrp k hk, ?_⟩
  rw [ends_bind, ends_readArray]
  refine ⟨κ k, hcp k hkc, ?_⟩
  apply (hZ.copyRowOf_ends hκ hkc hY hdisjY hcol (hρ k hk)).bind
  intro _ g₂ hZ₂
  apply (hZ₂.forwardRow_ends hLU hdisjLU hκ hcp hkr hkc).mono
  intro _ g₃ hZ₃
  refine ⟨_, hZ₃, hsolved.step (fun i hi => ?_) (fun c => ?_), fun j hj => ?_⟩
  · rw [Table.addRow_of_ne _ _ hi.ne, hcopied i hi.ne]
  · have hsum : ∑ j ∈ Ico 0 k, B k j * Table.copyRow S (ρ k) Z k j c =
        ∑ j ∈ Ico 0 k, B k j * Z j c := by
      apply sum_congr rfl
      intro j hj
      rw [hcopied j (mem_Ico.mp hj).2.ne]
    rw [Table.addRow_self, Table.copyRow, if_pos rfl, hsum, range_eq_Ico]
  · have hne : j ≠ k := (hk.trans_le hj).ne'
    rw [Table.addRow_of_ne _ _ hne, hcopied j hne, hkeep j hj]

/-- Solving in a view of its own. -/
theorem luInvmult_ends [CharP F 2] {r : ℤ} (hLU : Holds LU h B)
    (hY : Holds Y h S) (hX : Holds X h A) (hdisjLU : Disjoint (cells X) (cells LU))
    (hdisjY : Disjoint (cells X) (cells Y)) (hdim : nCol LU = nRow X) (hrow : nRow LU = nRow Y)
    (hcol : nCol X = nCol Y) (hrankr : solveRank LU r ≤ nRow LU)
    (hrankc : solveRank LU r ≤ nCol LU) (hρ : ∀ i < solveRank LU r, ρ i < nRow Y)
    (hrp : ∀ i < solveRank LU r, rp[i]? = some (ρ i)) (hκ : Placement X κ (nCol LU))
    (hcp : ∀ i < nCol LU, cp[i]? = some (κ i)) (hdiag : ∀ i < solveRank LU r, B i i ≠ 0) :
    Ends (MvMatrix.luInvmult LU r rp cp Y X) h fun _ h' => ∃ Z W,
      Forward B (solveRank LU r) (fun i => S (ρ i)) Z ∧
        (∀ i < solveRank LU r, ∀ c, ∑ j ∈ Ico i (nCol LU), B i j * W (κ j) c = Z i c) ∧
          (∀ j, solveRank LU r ≤ j → j < nCol LU → W (κ j) = 0) ∧
            Holds X h' W ∧ AgreeOff (cells X) h h' := by
  unfold MvMatrix.luInvmult
  rw [ends_bind, ends_ensure, ends_bind, ends_ensure, ends_bind, ends_ensure]
  refine ⟨hdim, hrow, hcol, ?_⟩
  have hstart : Placed X κ (nCol LU) h h fun k => A (κ k) :=
    ⟨A, hX, fun _ _ => rfl, AgreeOff.refl _ h⟩
  apply (hstart.clearRows_ends hκ hcp (hdim ▸ hrankc) hdim.ge).bind
  rintro _ g₁ ⟨D, hD, -, hzero⟩
  apply (hD.forward_ends hLU hY hdisjLU hdisjY hcol.symm hρ hrp hκ hcp hrankr hrankc).bind
  rintro _ g₂ ⟨Z, ⟨A', hA', hplaced, hagree⟩, hsolved, hkeep⟩
  have hplaces : Places (some cp) (nCol LU) κ := hcp
  apply (uInvmultInplaceP_ends (holds_agreeOff hLU hagree hdisjLU) hA' hdisjLU hplaces hrankr
    hrankc hκ.lt hκ.inj hdiag).mono
  rintro _ g₃ ⟨W, hW, hXW, hagree'⟩
  refine ⟨Z, W, hsolved, fun i hi c => ?_, fun j hj hjc => ?_, hXW, hagree.trans hagree'⟩
  · rw [hW.solve i (Nat.zero_le i) hi c, hplaced i (hi.trans_le hrankc)]
  · rw [hW.behind hκ.inj hj hjc, hplaced j hjc, hkeep j hj, hzero j hj (hjc.trans_eq hdim)]

end OutOfPlace

/-! ## In place -/

/-- A row permutation that may be left out. -/
def ListsOpt (perm : Option (Array ℕ)) (n : ℕ) (π : Equiv.Perm ℕ) : Prop :=
  match perm with
  | some xs => (∀ k, π k < n ↔ k < n) ∧ ∀ k < n, xs[k]? = some (π k)
  | none => π = 1

theorem listsOpt_none (n : ℕ) : ListsOpt none n 1 := rfl

theorem TopView.permuteRowsOpt_ends {T : V} (hT : TopView M T n) (hA : Holds M h A)
    {perm : Option (Array ℕ)} (hperm : ListsOpt perm n π) :
    Ends (permuteRowsOpt T perm) h fun _ h' =>
      Holds M h' (fun i c => if i < n then A (π i) c else A i c) ∧ AgreeOff (cells M) h h' := by
  cases perm with
  | some xs => exact hT.permuteRows_ends hA hperm.1 hperm.2
  | none =>
      obtain rfl : π = 1 := hperm
      refine ends_pure.mpr ⟨holds_congr hA fun i _ c _ => ?_, AgreeOff.refl _ h⟩
      rw [Equiv.Perm.one_apply, ite_self]

/-- Solving in place. -/
theorem luInvmultInplace_ends [CharP F 2] {r : ℤ} {rp cp : Option (Array ℕ)} (hLU : Holds LU h B)
    (hX : Holds X h A) (hdisj : Disjoint (cells X) (cells LU)) (hpos : 0 < nRow X)
    (hrow : nRow LU ≤ nRow X) (hcol : nCol LU ≤ nRow X) (hrankr : solveRank LU r ≤ nRow LU)
    (hrankc : solveRank LU r ≤ nCol LU) (hrp : ListsOpt rp (nRow LU) π)
    (hcp : ListsOpt cp (nCol LU) τ) (hdiag : ∀ i < solveRank LU r, B i i ≠ 0) :
    Ends (luInvmultInplace LU r rp cp X) h fun _ h' => ∃ Z W,
      ForwardSolved B (solveRank LU r) id
          (fun i c => if i < nRow LU then A (π i) c else A i c) Z ∧
        BackSolved B 0 (solveRank LU r) (nCol LU) id Z W ∧
          Holds X h' (fun i c => if i < nCol LU then W (τ i) c else W i c) ∧
            AgreeOff (cells X) h h' := by
  unfold luInvmultInplace
  rw [ends_bind, ends_ensure, ends_bind, ends_ensure]
  refine ⟨hcol, hrow, ?_⟩
  refine ends_bind.mpr (getTop_ends hpos hcol fun X₁ hX₁ => ?_)
  refine ends_bind.mpr (getTop_ends hpos hrow fun Y₁ hY₁ => ?_)
  apply (hY₁.permuteRowsOpt_ends hX hrp).bind
  rintro _ h₁ ⟨hpermuted, hagree₁⟩
  -- Forward substitution runs in the view that is as high as the factors.
  have hY₁row := hY₁.nRow_eq
  apply (lInvmultInplaceP_ends (holds_agreeOff hLU hagree₁ hdisj) (hY₁.holds hpermuted)
    (hdisj.mono_left hY₁.cells_subset) (Places.none_id _) hrankr hrankc
    (fun i hi => hY₁row ▸ hi.trans_le hrankr) (fun i _ j _ heq => heq)).bind
  rintro _ h₂ ⟨Z, hZ, hYZ, hagreeZ⟩
  have hXZ : Holds X h₂ Z := hY₁.holds_of hpermuted hYZ hagreeZ fun i hi =>
    hZ.frame i fun j hj => (hj.trans_le (hrankr.trans hi)).ne
  have hagree₂ := hagree₁.trans (hagreeZ.mono hY₁.cells_subset)
  -- Back substitution runs in the view that is as high as the solution.
  have hX₁row := hX₁.nRow_eq
  apply (uInvmultInplaceP_ends (holds_agreeOff hLU hagree₂ hdisj) (hX₁.holds hXZ)
    (hdisj.mono_left hX₁.cells_subset) (Places.none_id _) hrankr hrankc
    (fun i hi => hX₁row ▸ hi) (fun i _ j _ heq => heq) hdiag).bind
  rintro _ h₃ ⟨W, hW, hXW, hagreeW⟩
  have hXW' : Holds X h₃ W := hX₁.holds_of hXZ hXW hagreeW fun i hi =>
    hW.frame i fun j _ hj => (hj.trans_le (hrankc.trans hi)).ne
  have hagree₃ := hagree₂.trans (hagreeW.mono hX₁.cells_subset)
  apply (hX₁.permuteRowsOpt_ends hXW' hcp).mono
  rintro _ h₄ ⟨hfinal, hagree₄⟩
  exact ⟨Z, W, hZ, hW, hfinal, hagree₃.trans hagree₄⟩

/-- Solving in place without permutations. -/
theorem luInvmultInplace_ends_none [CharP F 2] (hLU : Holds LU h B) (hX : Holds X h A)
    (hdisj : Disjoint (cells X) (cells LU)) (hpos : 0 < nRow X) (hrow : nRow LU ≤ nRow X)
    (hcol : nCol LU ≤ nRow X) (hdiag : ∀ i < min (nCol LU) (nRow LU), B i i ≠ 0) :
    Ends (luInvmultInplace LU (-1) none none X) h fun _ h' => ∃ Z W,
      ForwardSolved B (min (nCol LU) (nRow LU)) id A Z ∧
        BackSolved B 0 (min (nCol LU) (nRow LU)) (nCol LU) id Z W ∧
          Holds X h' W ∧ AgreeOff (cells X) h h' := by
  have hrank : solveRank LU (-1) = min (nCol LU) (nRow LU) := if_pos rfl
  apply (luInvmultInplace_ends (π := 1) (τ := 1) hLU hX hdisj hpos hrow hcol
    (hrank ▸ min_le_right _ _) (hrank ▸ min_le_left _ _) (listsOpt_none _) (listsOpt_none _)
    (hrank ▸ hdiag)).mono
  rintro _ h' ⟨Z, W, hZ, hW, hholds, hagree⟩
  simp only [Equiv.Perm.one_apply, ite_self, hrank] at hZ hW hholds
  exact ⟨Z, W, hZ, hW, hholds, hagree⟩

end HeapView

end TvRQ
