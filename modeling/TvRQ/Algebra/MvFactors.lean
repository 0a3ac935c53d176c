/-
# Products through the factors

`LU_mult` and `LU_mult_inplace` for all kinds of views.  Both multiply with the
upper factor from the first row on and with the lower factor from the last row
on, so that every row is used before it changes; the first one finds the rows of
the result at their places under the row permutation, the second one permutes
rows before and after.
-/

import TvRQ.Algebra.MvProduct
import TvRQ.Lib.Factors
import TvRQ.Lib.TableLoop

namespace TvRQ

open Imperative Heap Finset MvGen MvGenAll Elimination

namespace HeapView

variable {V α E F : Type} [Field F] [Zero E] [One E] [MvGenAll V (Heap α) E] [HeapView V α E F]
  {LU X Y : V} {h g : Heap α} {M S T D : Table F} {ρ κ : ℕ → ℕ} {n i j r : ℕ}
  {rp cp : Array ℕ}

/-! ## Determinant -/

/-- The product of the diagonal entries, which leaves the view alone. -/
theorem luDet_ends (hLU : Holds LU h M) (hsq : nRow LU = nCol LU) :
    Ends (MvMatrix.luDet LU) h fun d h' => d = el V (∏ i ∈ range (nCol LU), M i i) ∧ h' = h := by
  unfold MvMatrix.luDet
  rw [ends_bind, ends_ensure]
  refine ⟨hsq, ?_⟩
  refine foldRange_ends (fun k d h' => d = el V (∏ i ∈ range k, M i i) ∧ h' = h) (Nat.zero_le _)
    ?_ ⟨(el_one (V := V)).symm, rfl⟩
  rintro k d h₁ - hk ⟨rfl, rfl⟩
  rw [ends_bind, getEl_iff hLU (hk.trans_eq hsq.symm) hk, ends_embed]
  exact ⟨_, fmul_eq _ _, by rw [prod_range_succ], rfl⟩

/-! ## Rows at their places -/

/-- The rows below `n` have different places in `Y`. -/
structure Placement (Y : V) (ρ : ℕ → ℕ) (n : ℕ) : Prop where
  lt : ∀ k < n, ρ k < nRow Y
  inj : ∀ i < n, ∀ j < n, ρ i = ρ j → i = j

/-- `Y` has at the places of the rows below `n` the rows of `D`, and nothing but
cells of `Y` has changed since `h`. -/
def Placed (Y : V) (ρ : ℕ → ℕ) (n : ℕ) (h g : Heap α) (D : Table F) : Prop :=
  ∃ B, Holds Y g B ∧ (∀ k < n, B (ρ k) = D k) ∧ AgreeOff (cells Y) h g

theorem Placed.congr {D' : Table F} (hD : Placed Y ρ n h g D) (heq : ∀ k < n, D k = D' k) :
    Placed Y ρ n h g D' := by
  obtain ⟨B, hB, hplaced, hagree⟩ := hD
  exact ⟨B, hB, fun k hk => (hplaced k hk).trans (heq k hk), hagree⟩

/-- A view that is apart from `Y` still has what it had. -/
theorem Placed.holds_of_disjoint (hD : Placed Y ρ n h g D) (hX : Holds X h S)
    (hdisj : Disjoint (cells Y) (cells X)) : Holds X g S := by
  obtain ⟨B, -, -, hagree⟩ := hD
  exact holds_agreeOff hX hagree hdisj

omit [Zero E] [One E] in
theorem Placement.eq_iff (hρ : Placement Y ρ n) (hi : i < n) (hj : j < n) :
    ρ i = ρ j ↔ i = j :=
  ⟨hρ.inj i hi j hj, congrArg ρ⟩

omit [Zero E] [One E] in
theorem placement_id (X : V) : Placement X id (nRow X) :=
  ⟨fun _ hk => hk, fun _ _ _ _ heq => heq⟩

omit [Zero E] [One E] in
theorem placement_perm {π : Equiv.Perm ℕ} (hπ : ∀ k, π k < n ↔ k < n) (hrow : n ≤ nRow Y) :
    Placement Y π n :=
  ⟨fun k hk => ((hπ k).mpr hk).trans_le hrow, fun _ _ _ _ heq => π.injective heq⟩

/-- An operation on `Y` is one on the rows at their places. -/
theorem Placed.step {p : Prog (Heap α) Unit} {f : Table F → Table F} {D' : Table F}
    (hD : Placed Y ρ n h g D)
    (hp : ∀ {B}, Holds Y g B → Ends p g fun _ g' => Holds Y g' (f B) ∧ AgreeOff (cells Y) g g')
    (hf : ∀ B : Table F, (∀ k < n, B (ρ k) = D k) → ∀ k < n, ∀ c, f B (ρ k) c = D' k c) :
    Ends p g fun _ g' => Placed Y ρ n h g' D' := by
  obtain ⟨B, hB, hplaced, hagree⟩ := hD
  apply (hp hB).mono
  rintro _ g' ⟨hB', hagree'⟩
  exact ⟨f B, hB', fun k hk => funext (hf B hplaced k hk), hagree.trans hagree'⟩

theorem Placed.clearRow_ends (hρ : Placement Y ρ n) (hD : Placed Y ρ n h g D) (hi : i < n) :
    Ends (clearRow Y (ρ i)) g fun _ g' => Placed Y ρ n h g' (D.clearRow i) := by
  apply hD.step fun hB => HeapView.clearRow_ends hB (hρ.lt i hi)
  intro B hB k hk c
  simp only [Table.clearRow, hρ.eq_iff hk hi, hB k hk]

theorem Placed.multRow_ends (hρ : Placement Y ρ n) (hD : Placed Y ρ n h g D) (hi : i < n)
    (a : F) :
    Ends (multRow Y (ρ i) (el V a)) g fun _ g' => Placed Y ρ n h g' (D.multRow i a) := by
  apply hD.step fun hB => HeapView.multRow_ends hB (hρ.lt i hi) a
  intro B hB k hk c
  simp only [Table.multRow, hρ.eq_iff hk hi, hB k hk, hB i hi]

/-- Copying a row of a view apart from `Y`. -/
theorem Placed.copyRowOf_ends (hρ : Placement Y ρ n) (hD : Placed Y ρ n h g D) (hi : i < n)
    (hX : Holds X h S) (hdisj : Disjoint (cells Y) (cells X)) (hcol : nCol X = nCol Y)
    (hr : r < nRow X) :
    Ends (copyRow X r Y (ρ i)) g fun _ g' => Placed Y ρ n h g' (Table.copyRow S r D i) := by
  have hX' := hD.holds_of_disjoint hX hdisj
  apply hD.step fun hB => HeapView.copyRow_ends hB hX' (Or.inr hdisj) hcol hr (hρ.lt i hi)
  intro B hB k hk c
  simp only [Table.copyRow, hρ.eq_iff hk hi, hB k hk]

/-- Adding a multiple of another row of `Y`. -/
theorem Placed.addRow_ends (hρ : Placement Y ρ n) (hD : Placed Y ρ n h g D) (hi : i < n)
    (hj : j < n) (a : F) :
    Ends (multaddRow Y (ρ j) (el V a) Y (ρ i)) g fun _ g' =>
      Placed Y ρ n h g' (D.addRow i fun c => a * D j c) := by
  apply hD.step fun hB =>
    multaddRow_ends hB hB (Or.inl rfl) rfl (hρ.lt j hj) (hρ.lt i hi) a
  intro B hB k hk c
  simp only [Table.multaddRowFrom_zero, Table.addRow, hρ.eq_iff hk hi, hB k hk, hB j hj]

/-- Adding a multiple of a row of a view apart from `Y`. -/
theorem Placed.addRowOf_ends (hρ : Placement Y ρ n) (hD : Placed Y ρ n h g D) (hi : i < n)
    (hX : Holds X h S) (hdisj : Disjoint (cells Y) (cells X)) (hcol : nCol X = nCol Y)
    (hr : r < nRow X) (a : F) :
    Ends (multaddRow X r (el V a) Y (ρ i)) g fun _ g' =>
      Placed Y ρ n h g' (D.addRow i fun c => a * S r c) := by
  have hX' := hD.holds_of_disjoint hX hdisj
  apply hD.step fun hB =>
    multaddRow_ends hB hX' (Or.inr hdisj) hcol hr (hρ.lt i hi) a
  intro B hB k hk c
  simp only [Table.multaddRowFrom_zero, Table.addRow, hρ.eq_iff hk hi, hB k hk]

/-! ## Multiplying with the factors -/

/-- One pass over a row of U, whose multiples of the rows of `X` go to row `i`. -/
theorem Placed.upperRow_ends (hρ : Placement Y ρ n) (hD : Placed Y ρ n h g D) (hi : i < n)
    (hLU : Holds LU h M) (hdisjLU : Disjoint (cells Y) (cells LU)) (hrow : i < nRow LU)
    (hX : Holds X h S) (hdisj : Disjoint (cells Y) (cells X)) (hcol : nCol X = nCol Y)
    (hcp : ∀ k < nCol LU, cp[k]? = some (κ k)) (hκ : ∀ k < nCol LU, κ k < nRow X) :
    Ends (forDown i (nCol LU) fun j => do
      let cj ← readArray cp j
      let a ← getEl LU i j
      multaddRow X cj a Y (ρ i)) g fun _ g' =>
        Placed Y ρ n h g' (D.addRow i fun c => timesU M (nCol LU) (fun k => S (κ k)) i c) := by
  apply sumDown_ends (R := fun g' D => Placed Y ρ n h g' D)
  · intro j g₁ D₁ _ hj _ hD₁
    rw [ends_bind, ends_readArray]
    refine ⟨κ j, hcp j hj, ?_⟩
    rw [ends_bind, getEl_iff (hD₁.holds_of_disjoint hLU hdisjLU) hrow hj]
    exact hD₁.addRowOf_ends hρ hi hX hdisj hcol (hκ j hj) (M i j)
  · exact hD

/-- Multiplying with U from the first row on, where all rows of the result are
zero before. -/
theorem Placed.upper_ends (hρ : Placement Y ρ (nRow LU))
    (hD : Placed Y ρ (nRow LU) h g fun _ _ => 0) (hLU : Holds LU h M)
    (hdisjLU : Disjoint (cells Y) (cells LU)) (hX : Holds X h S)
    (hdisj : Disjoint (cells Y) (cells X)) (hcol : nCol X = nCol Y)
    (hrp : ∀ k < nRow LU, rp[k]? = some (ρ k)) (hcp : ∀ k < nCol LU, cp[k]? = some (κ k))
    (hκ : ∀ k < nCol LU, κ k < nRow X) :
    Ends (forRange 0 (nRow LU) fun i => do
      let t ← readArray rp i
      forDown i (nCol LU) fun j => do
        let cj ← readArray cp j
        let a ← getEl LU i j
        multaddRow X cj a Y t) g fun _ g' =>
          Placed Y ρ (nRow LU) h g' (timesU M (nCol LU) fun k => S (κ k)) := by
  let T : ℕ → Table F := fun i k c =>
    if k < i then timesU M (nCol LU) (fun k => S (κ k)) k c else 0
  refine (forRange_ends (fun i g' => Placed Y ρ (nRow LU) h g' (T i)) (Nat.zero_le _)
    (fun i g₁ _ hi hI => ?_) hD).mono fun _ g' hT =>
      hT.congr fun k hk => funext fun c => if_pos hk
  rw [ends_bind, ends_readArray]
  refine ⟨ρ i, hrp i hi, ?_⟩
  refine (hI.upperRow_ends hρ hi hLU hdisjLU hi hX hdisj hcol hcp hκ).mono fun _ g₂ hstep =>
    hstep.congr fun k _ => ?_
  funext c
  by_cases hki : k = i
  · simp [Table.addRow, hki, T]
  · have hiff : k < i + 1 ↔ k < i := by omega
    simp only [Table.addRow, if_neg hki, T, hiff]

/-- One pass over the first `m` columns of a row of L, whose body may compute its
arguments in any way. -/
theorem Placed.lowerRow_ends {m : ℕ} {body : ℕ → Prog (Heap α) Unit} (hρ : Placement Y ρ n)
    (hD : Placed Y ρ n h g D) (hi : i < n) (hmi : m ≤ i)
    (hbody : ∀ j < m, ∀ {g₁ D₁ Q}, Placed Y ρ n h g₁ D₁ →
      Ends (multaddRow Y (ρ j) (el V (M i j)) Y (ρ i)) g₁ Q → Ends (body j) g₁ Q) :
    Ends (forDown 0 m body) g fun _ g' =>
      Placed Y ρ n h g' (D.addRow i fun c => ∑ j ∈ range m, M i j * D j c) := by
  rw [range_eq_Ico]
  apply sumDown_ends (R := fun g' D => Placed Y ρ n h g' D)
  · intro j g₁ D₁ _ hj hoff hD₁
    have hji : j < i := hj.trans_le hmi
    rw [← hoff j hji.ne]
    exact hbody j hj hD₁ (hD₁.addRow_ends hρ hi (hji.trans hi) (M i j))
  · exact hD

/-- Multiplying with L from the last row on, where a round may rely on the rows
up to its own. -/
theorem Placed.lower_ends {m N : ℕ} {round : ℕ → Prog (Heap α) Unit}
    (hD : Placed Y ρ n h g D)
    (hround : ∀ i < N, ∀ {g₁ D₁}, (∀ k ≤ i, D₁ k = D k) → Placed Y ρ n h g₁ D₁ →
      Ends (round i) g₁ fun _ g' =>
        Placed Y ρ n h g' fun k c => if k = i then timesL M m D i c else D₁ k c) :
    Ends (forDown 0 N round) g fun _ g' =>
      Placed Y ρ n h g' fun k c => if k < N then timesL M m D k c else D k c := by
  let T : ℕ → Table F := fun i k c => if i ≤ k ∧ k < N then timesL M m D k c else D k c
  refine (forDown_ends (fun i g' => Placed Y ρ n h g' (T i)) (Nat.zero_le N)
    (fun i g₁ _ hi hT => ?_) (hD.congr fun k _ => ?_)).mono fun _ g' hT =>
      hT.congr fun k _ => ?_
  · have hkeep : ∀ k ≤ i, T (i + 1) k = D k := by
      intro k hk
      have hno : ¬ (i + 1 ≤ k ∧ k < N) := by omega
      simp only [T, if_neg hno]
    refine (hround i hi hkeep hT).mono fun _ g₂ hstep => hstep.congr fun k _ => ?_
    funext c
    by_cases hki : k = i
    · simp only [T, hki, le_rfl, hi, and_self, if_true]
    · have hiff : (i + 1 ≤ k ∧ k < N) ↔ (i ≤ k ∧ k < N) := by omega
      simp only [T, if_neg hki, hiff]
  · have hno : ¬ (N ≤ k ∧ k < N) := by omega
    simp only [T, if_neg hno]
  · simp only [T, Nat.zero_le, true_and]

/-- The product with the factors, in a view of its own. -/
theorem luMult_ends (hLU : Holds LU h M) (hX : Holds X h S) (hY : Holds Y h T)
    (hdisjLU : Disjoint (cells Y) (cells LU)) (hdisjX : Disjoint (cells Y) (cells X))
    (hdim : nCol LU = nRow X) (hrow : nRow LU = nRow Y) (hcol : nCol X = nCol Y)
    (hρ : Placement Y ρ (nRow LU)) (hrp : ∀ k < nRow LU, rp[k]? = some (ρ k))
    (hκ : ∀ k < nCol LU, κ k < nRow X) (hcp : ∀ k < nCol LU, cp[k]? = some (κ k)) :
    Ends (MvMatrix.luMult LU rp cp X Y) h fun _ g =>
      Placed Y ρ (nRow LU) h g
        (timesL M (nCol LU) (timesU M (nCol LU) fun k => S (κ k))) := by
  let U : Table F := timesU M (nCol LU) fun k => S (κ k)
  unfold MvMatrix.luMult
  rw [ends_bind, ends_ensure, ends_bind, ends_ensure, ends_bind, ends_ensure]
  refine ⟨hdim, hrow, hcol, ?_⟩
  apply (clear_ends hY).bind
  rintro _ g₀ ⟨hclear, hagree⟩
  have hstart : Placed Y ρ (nRow LU) h g₀ fun _ _ => 0 := ⟨_, hclear, fun k _ => rfl, hagree⟩
  apply (hstart.upper_ends hρ hLU hdisjLU hX hdisjX hcol hrp hcp hκ).bind
  intro _ g₁ (hU : Placed Y ρ (nRow LU) h g₁ U)
  have hmin : ∀ i, (if nCol LU ≤ i then nCol LU else i) = min i (nCol LU) := fun i => by
    rw [min_comm, Nat.min_def]
  refine (hU.lower_ends (m := nCol LU) fun i hi g₂ D₁ hD₁ hplaced => ?_).mono fun _ g hpost =>
    hpost.congr fun k hk => funext fun c => if_pos hk
  rw [hmin]
  refine (hplaced.lowerRow_ends (M := M) hρ hi (min_le_left _ _)
    fun j hj g₃ D₂ Q hplaced₂ hends => ?_).mono fun _ g₃ hstep => hstep.congr fun k _ => ?_
  · have hLU₃ := hplaced₂.holds_of_disjoint hLU hdisjLU
    have hji := hj.trans_le (min_le_left _ _)
    rw [ends_bind, ends_readArray]
    refine ⟨ρ j, hrp j (hji.trans hi), ?_⟩
    rw [ends_bind, getEl_iff hLU₃ hi (hj.trans_le (min_le_right _ _)), ends_bind, ends_readArray]
    exact ⟨ρ i, hrp i hi, hends⟩
  · funext c
    by_cases hki : k = i
    · have hzero : nCol LU ≤ i → U i c = 0 := fun hi => timesU_of_le hi c
      have hsum : ∑ j ∈ range (min i (nCol LU)), M i j * D₁ j c =
          ∑ j ∈ range (min i (nCol LU)), M i j * U j c := by
        apply sum_congr rfl
        intro j hj
        rw [hD₁ j ((mem_range.mp hj).le.trans (min_le_left _ _))]
      simp only [Table.addRow, hki, if_true, timesL_of_zero hzero, hsum, hD₁ i le_rfl]
    · simp only [Table.addRow, if_neg hki]

/-- Multiplying with U in place. -/
theorem uMultInplace_ends (hLU : Holds LU h M) (hX : Holds X h S)
    (hdisj : Disjoint (cells X) (cells LU)) (hcol : nCol LU ≤ nRow X) :
    Ends (MvMatrix.uMultInplace LU X) h fun _ g =>
      Placed X id (nRow X) h g fun k c =>
        if k < min (nCol LU) (nRow LU) then timesU M (nCol LU) S k c else S k c := by
  have hid := placement_id X
  refine forRange_ends (fun i g => Placed X id (nRow X) h g fun k c =>
    if k < i then timesU M (nCol LU) S k c else S k c) (Nat.zero_le _)
    (fun i g₁ _ hi hI => ?_) ⟨S, hX, fun k _ => by simp, AgreeOff.refl _ h⟩
  have him : i < nCol LU := hi.trans_le (min_le_left _ _)
  have hir : i < nRow LU := hi.trans_le (min_le_right _ _)
  have hix : i < nRow X := him.trans_le hcol
  rw [ends_bind, getEl_iff (hI.holds_of_disjoint hLU hdisj) hir him]
  apply (hI.multRow_ends hid hix (M i i)).bind
  intro _ g₂ hscaled
  refine (sumUp_ends (R := fun g D => Placed X id (nRow X) h g D) (i := i)
    (w := fun j c => M i j * S j c) (fun j g₃ D _ hj hoff hD => ?_) hscaled).mono fun _ g₃ hstep =>
      hstep.congr fun k _ => ?_
  · have hne : j ≠ i := by omega
    have hrow : D j = S j := by
      rw [hoff j hne]
      funext c
      have hnot : ¬ j < i := by omega
      simp only [Table.multRow, if_neg hne, if_neg hnot]
    rw [ends_bind, getEl_iff (hD.holds_of_disjoint hLU hdisj) hir hj, ← hrow]
    exact hD.addRow_ends hid hix (hj.trans_le hcol) (M i j)
  · funext c
    by_cases hki : k = i
    · simp only [Table.addRow, Table.multRow, hki, if_true, lt_irrefl, if_false,
        Nat.lt_succ_self, timesU]
      rw [sum_eq_sum_Ico_succ_bot him]
    · have hiff : k < i + 1 ↔ k < i := by omega
      simp only [Table.addRow, Table.multRow, if_neg hki, hiff]

/-- Multiplying with L in place. -/
theorem lMultInplace_ends (hLU : Holds LU h M) (hdisj : Disjoint (cells X) (cells LU))
    (hrow : nRow LU ≤ nRow X) (hD : Placed X id (nRow X) h g D) :
    Ends (MvMatrix.lMultInplace LU X) g fun _ g' =>
      Placed X id (nRow X) h g' fun k c =>
        if k < nRow LU then timesL M (nCol LU) D k c else D k c := by
  have hid := placement_id X
  refine hD.lower_ends fun i hi g₁ D₁ hD₁ hplaced => ?_
  have hix : i < nRow X := hi.trans_le hrow
  have hpass : ∀ {g₂ D₂} m, m ≤ nCol LU → m ≤ i → Placed X id (nRow X) h g₂ D₂ →
      Ends (forDown 0 m fun j => do
        let a ← getEl LU i j
        multaddRow X j a X i) g₂ fun _ g' => Placed X id (nRow X) h g'
          (D₂.addRow i fun c => ∑ j ∈ range m, M i j * D₂ j c) := by
    intro g₂ D₂ m hm hmi hD₂
    refine hD₂.lowerRow_ends hid hix hmi fun j hj g₃ D₃ Q hplaced₃ hends => ?_
    rw [ends_bind, getEl_iff (hplaced₃.holds_of_disjoint hLU hdisj) hi (hj.trans_le hm)]
    exact hends
  have hsum : ∀ m ≤ i, ∀ c, ∑ j ∈ range m, M i j * D₁ j c = ∑ j ∈ range m, M i j * D j c := by
    intro m hm c
    apply sum_congr rfl
    intro j hj
    rw [hD₁ j ((mem_range.mp hj).le.trans hm)]
  split_ifs with him
  · apply (hplaced.clearRow_ends hid hix).bind
    intro _ g₂ hcleared
    refine (hpass (nCol LU) le_rfl him hcleared).mono fun _ g₃ hstep => hstep.congr fun k _ => ?_
    funext c
    by_cases hki : k = i
    · have hother : ∀ j ∈ range (nCol LU), M i j * (D₁.clearRow i) j c = M i j * D₁ j c := by
        intro j hj
        have hne : j ≠ i := ((mem_range.mp hj).trans_le him).ne
        simp only [Table.clearRow, if_neg hne]
      rw [hki, Table.addRow_self, sum_congr rfl hother, hsum _ him, if_pos rfl, timesL,
        if_neg (not_lt.mpr him), min_eq_right him, Table.clearRow, if_pos rfl]
    · simp only [Table.addRow, Table.clearRow, if_neg hki]
  · have hlt := not_le.mp him
    refine (hpass i hlt.le le_rfl hplaced).mono fun _ g₂ hstep => hstep.congr fun k _ => ?_
    funext c
    by_cases hki : k = i
    · simp only [Table.addRow, hki, if_true, hsum i le_rfl, hD₁ i le_rfl, timesL_of_lt hlt]
    · simp only [Table.addRow, if_neg hki]

/-- The product with the factors in place of the rows of `X`. -/
theorem luMultInplace_ends {π τ : Equiv.Perm ℕ} {inv : Array ℕ} (hLU : Holds LU h M)
    (hX : Holds X h S) (hdisj : Disjoint (cells X) (cells LU)) (hpos : 0 < nRow X)
    (hcol : nCol LU ≤ nRow X) (hrow : nRow LU ≤ nRow X)
    (hπ : ∀ k, π k < nRow LU ↔ k < nRow LU) (hinv : ∀ k < nRow LU, inv[k]? = some (π k))
    (hτ : ∀ k, τ k < nCol LU ↔ k < nCol LU) (hcp : ∀ k < nCol LU, cp[k]? = some (τ k)) :
    Ends (MvMatrix.luMultInplace LU (some inv) (some cp) X) h fun _ g => ∃ B,
      Holds X g B ∧ AgreeOff (cells X) h g ∧ ∀ i < nRow LU, ∀ c,
        B i c = timesL M (nCol LU) (timesU M (nCol LU) fun k => S (τ k)) (π i) c := by
  unfold MvMatrix.luMultInplace
  rw [ends_bind, ends_ensure, ends_bind, ends_ensure]
  refine ⟨hcol, hrow, ?_⟩
  refine ends_bind.mpr (getTop_ends hpos hcol fun X₁ hX₁ => ?_)
  refine ends_bind.mpr (getTop_ends hpos hrow fun Y₁ hY₁ => ?_)
  apply (hX₁.permuteRows_ends hX hτ hcp).bind
  rintro _ g₁ ⟨hpermuted, hagree₁⟩
  apply (uMultInplace_ends (holds_agreeOff hLU hagree₁ hdisj) hpermuted hdisj hcol).bind
  intro _ g₂ hU
  apply (lMultInplace_ends (holds_agreeOff hLU hagree₁ hdisj) hdisj hrow hU).bind
  rintro _ g₃ ⟨B, hB, hplaced, hagree₃⟩
  apply (hY₁.permuteRows_ends hB hπ hinv).mono
  rintro _ g₄ ⟨hfinal, hagree₄⟩
  refine ⟨_, hfinal, hagree₁.trans (hagree₃.trans hagree₄), fun i hi c => ?_⟩
  have hi' := (hπ i).mpr hi
  have hrow_eq := congrFun (hplaced (π i) (hi'.trans_le hrow)) c
  simp only [id, if_pos hi'] at hrow_eq
  rw [if_pos hi, hrow_eq]
  apply timesL_congr
  intro k hk hkm
  rw [if_pos (lt_min hkm (hk.trans_lt hi')), timesU, timesU]
  apply sum_congr rfl
  intro j hj
  simp only [if_pos (mem_Ico.mp hj).2]

end HeapView

end TvRQ
