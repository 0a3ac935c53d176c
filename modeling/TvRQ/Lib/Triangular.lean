/-
# Triangular solves

Forward and back substitution with the two factors an elimination leaves in
one table.  The right-hand sides are the rows of a table, and unknown `i` lives
in row `pl i` of it, so the same relations describe a solve in place and one
that goes through a placement.  The last result combines both: with full
column rank the substitutions give the only solution of the pivot equations.
-/

import TvRQ.Lib.Pluq

namespace Elimination

open Finset

variable {F : Type*} [Field F]

/-- `Z` is `X` after forward substitution with the unit lower factor in `M`. -/
structure ForwardSolved (M : Table F) (r : ℕ) (pl : ℕ → ℕ) (X Z : Table F) : Prop where
  solve : ∀ i < r, ∀ c, Z (pl i) c + ∑ j ∈ range i, M i j * Z (pl j) c = X (pl i) c
  frame : ∀ k, (∀ i < r, pl i ≠ k) → Z k = X k

/-- `W` is `Z` after back substitution of the rows from `lo` on with the upper
factor in `M`, whose rows have `m` columns. -/
structure BackSolved (M : Table F) (lo r m : ℕ) (pl : ℕ → ℕ) (Z W : Table F) : Prop where
  solve : ∀ i, lo ≤ i → i < r → ∀ c, ∑ j ∈ Ico i m, M i j * W (pl j) c = Z (pl i) c
  frame : ∀ k, (∀ i, lo ≤ i → i < r → pl i ≠ k) → W k = Z k

/-- Nothing is to be done before the first row. -/
theorem forwardSolved_zero (M : Table F) (pl : ℕ → ℕ) (X : Table F) :
    ForwardSolved M 0 pl X X where
  solve := fun i hi => absurd hi (Nat.not_lt_zero i)
  frame := fun _ _ => rfl

/-- One more row of forward substitution. -/
theorem ForwardSolved.step {M : Table F} {r : ℕ} {pl : ℕ → ℕ} {X Z : Table F}
    (h : ForwardSolved M r pl X Z) (hpl : ∀ i < r, pl i ≠ pl r) :
    ForwardSolved M (r + 1) pl X fun k c =>
      if k = pl r then Z k c - ∑ j ∈ range r, M r j * Z (pl j) c else Z k c where
  solve := fun i hi c => by
    have hsum : ∀ n ≤ r, ∑ j ∈ range n, M i j *
        (if pl j = pl r then Z (pl j) c - ∑ j ∈ range r, M r j * Z (pl j) c else Z (pl j) c) =
          ∑ j ∈ range n, M i j * Z (pl j) c := fun n hn => sum_congr rfl fun j hj => by
      rw [if_neg (hpl j ((mem_range.mp hj).trans_le hn))]
    rcases Nat.lt_succ_iff_lt_or_eq.mp hi with hlt | rfl
    · rw [hsum i hlt.le, if_neg (hpl i hlt), h.solve i hlt c]
    · rw [hsum i le_rfl, if_pos rfl, h.frame (pl i) hpl, sub_add_cancel]
  frame := fun k hk => by
    funext c
    rw [if_neg fun heq => hk r (Nat.lt_succ_self r) heq.symm]
    rw [h.frame k fun i hi => hk i (hi.trans (Nat.lt_succ_self r))]

/-- Nothing is to be done behind the last row. -/
theorem backSolved_self (M : Table F) (r m : ℕ) (pl : ℕ → ℕ) (Z : Table F) :
    BackSolved M r r m pl Z Z where
  solve := fun _ hlo hhi => absurd hhi (not_lt.mpr hlo)
  frame := fun _ _ => rfl

/-- One more row of back substitution. -/
theorem BackSolved.step {M : Table F} {i r m : ℕ} {pl : ℕ → ℕ} {Z W : Table F}
    (h : BackSolved M (i + 1) r m pl Z W) (hir : i < r) (hrm : r ≤ m) (hdiag : M i i ≠ 0)
    (hpl : ∀ j, i < j → j < m → pl j ≠ pl i) :
    BackSolved M i r m pl Z fun k c =>
      if k = pl i then (M i i)⁻¹ * (W k c - ∑ j ∈ Ico (i + 1) m, M i j * W (pl j) c)
      else W k c where
  solve := fun k hlo hhi c => by
    have hsum : ∀ n, i < n → ∑ j ∈ Ico n m, M k j *
        (if pl j = pl i then (M i i)⁻¹ * (W (pl j) c - ∑ j ∈ Ico (i + 1) m, M i j * W (pl j) c)
          else W (pl j) c) = ∑ j ∈ Ico n m, M k j * W (pl j) c := fun n hn =>
      sum_congr rfl fun j hj => by
        rw [mem_Ico] at hj
        rw [if_neg (hpl j (hn.trans_le hj.1) hj.2)]
    rcases hlo.eq_or_lt with rfl | hlt
    · have hframe : W (pl i) = Z (pl i) :=
        h.frame (pl i) fun j hj hjr => hpl j hj (hjr.trans_le hrm)
      rw [sum_eq_sum_Ico_succ_bot (hir.trans_le hrm), hsum _ (Nat.lt_succ_self i), if_pos rfl,
        mul_inv_cancel_left₀ hdiag, sub_add_cancel, hframe]
    · rw [hsum k hlt, h.solve k hlt hhi c]
  frame := fun k hk => by
    funext c
    rw [if_neg fun heq => hk i le_rfl hir heq.symm]
    rw [h.frame k fun j hj hjr => hk j (Nat.le_of_succ_le hj) hjr]

/-- Forward substitution determines its result. -/
theorem forward_unique {M : Table F} {r : ℕ} {y z z' : ℕ → F}
    (h : ∀ i < r, z i + ∑ j ∈ range i, M i j * z j = y i)
    (h' : ∀ i < r, z' i + ∑ j ∈ range i, M i j * z' j = y i) :
    ∀ i < r, z i = z' i := by
  intro i
  induction i using Nat.strong_induction_on with
  | _ i ih =>
      intro hi
      have hsum : ∑ j ∈ range i, M i j * z j = ∑ j ∈ range i, M i j * z' j :=
        sum_congr rfl fun j hj => by
          rw [ih j (mem_range.mp hj) ((mem_range.mp hj).trans hi)]
      have heq := (h i hi).trans (h' i hi).symm
      rw [hsum] at heq
      exact add_right_cancel heq

/-- Back substitution determines the rows it works on, when the diagonal is nonzero
there, from the rows behind them. -/
theorem back_unique_of_tail {M : Table F} {r m : ℕ} {z w w' : ℕ → F}
    (hdiag : ∀ k < r, M k k ≠ 0) (htail : ∀ i, r ≤ i → i < m → w i = w' i)
    (h : ∀ i < r, ∑ j ∈ Ico i m, M i j * w j = z i)
    (h' : ∀ i < r, ∑ j ∈ Ico i m, M i j * w' j = z i) :
    ∀ i < m, w i = w' i := by
  have hdown : ∀ d i, i + d + 1 = m → w i = w' i := by
    intro d
    induction d using Nat.strong_induction_on with
    | _ d ih =>
        intro i hi
        have him : i < m := by omega
        rcases lt_or_ge i r with hir | hir
        · have hsum : ∑ j ∈ Ico (i + 1) m, M i j * w j = ∑ j ∈ Ico (i + 1) m, M i j * w' j :=
            sum_congr rfl fun j hj => by
              rw [mem_Ico] at hj
              rw [ih (m - 1 - j) (by omega) j (by omega)]
          have heq := (h i hir).trans (h' i hir).symm
          rw [sum_eq_sum_Ico_succ_bot him, sum_eq_sum_Ico_succ_bot him, hsum] at heq
          exact mul_left_cancel₀ (hdiag i hir) (add_right_cancel heq)
        · exact htail i hir him
  exact fun i hi => hdown (m - 1 - i) i (by omega)

/-- Back substitution determines its result when the diagonal is nonzero. -/
theorem back_unique {M : Table F} {m : ℕ} {z w w' : ℕ → F} (hdiag : ∀ k < m, M k k ≠ 0)
    (h : ∀ i < m, ∑ j ∈ Ico i m, M i j * w j = z i)
    (h' : ∀ i < m, ∑ j ∈ Ico i m, M i j * w' j = z i) :
    ∀ i < m, w i = w' i :=
  back_unique_of_tail hdiag (fun _ hlo hhi => absurd hhi (not_lt.mpr hlo)) h h'

section Places

variable {M X X' Z Z' W W' : Table F} {r m c : ℕ} {pl pl' : ℕ → ℕ}

/-- Forward substitution does not depend on where the rows are. -/
theorem ForwardSolved.places_eq (h : ForwardSolved M r pl X Z) (h' : ForwardSolved M r pl' X' Z')
    (heq : ∀ i < r, X (pl i) c = X' (pl' i) c) : ∀ i < r, Z (pl i) c = Z' (pl' i) c :=
  forward_unique (fun i hi => h.solve i hi c) fun i hi => (h'.solve i hi c).trans (heq i hi).symm

/-- A row behind the ones that are solved for stays. -/
theorem BackSolved.behind (h : BackSolved M 0 r m pl Z W)
    (hpl : ∀ i < m, ∀ j < m, pl i = pl j → i = j) {k : ℕ} (hrk : r ≤ k) (hk : k < m) :
    W (pl k) = Z (pl k) :=
  h.frame (pl k) fun i _ hi heq =>
    (hi.trans_le hrk).ne (hpl i ((hi.trans_le hrk).trans hk) k hk heq)

/-- Back substitution does not depend on where the rows are. -/
theorem BackSolved.places_eq (h : BackSolved M 0 r m pl Z W) (h' : BackSolved M 0 r m pl' Z' W')
    (hpl : ∀ i < m, ∀ j < m, pl i = pl j → i = j)
    (hpl' : ∀ i < m, ∀ j < m, pl' i = pl' j → i = j) (hrm : r ≤ m)
    (hdiag : ∀ k < r, M k k ≠ 0) (heq : ∀ i < m, Z (pl i) c = Z' (pl' i) c) :
    ∀ i < m, W (pl i) c = W' (pl' i) c := by
  refine back_unique_of_tail hdiag (fun i hri him => ?_)
    (fun i hi => h.solve i (Nat.zero_le i) hi c) fun i hi => ?_
  · rw [h.behind hpl hri him, h'.behind hpl' hri him, heq i him]
  · rw [heq i (hi.trans_le hrm)]
    exact h'.solve i (Nat.zero_le i) hi c

end Places

/-- A product with the unit lower factor, as forward substitution reads it. -/
theorem sum_lower_mul (M : Table F) {r i : ℕ} (hi : i < r) (z : ℕ → F) :
    ∑ k ∈ range r, lower M i k * z k = z i + ∑ k ∈ range i, M i k * z k := by
  have htail : ∀ k ∈ range r, k ∉ range (i + 1) → lower M i k * z k = 0 := fun k _ hk => by
    rw [mem_range] at hk
    rw [lower_of_lt _ (by omega), zero_mul]
  rw [← sum_subset (range_subset_range.mpr hi) htail, sum_range_succ, lower_self, one_mul,
    add_comm]
  congr 1
  exact sum_congr rfl fun k hk => by rw [lower_of_gt _ (mem_range.mp hk)]

/-- A product with the upper factor, as back substitution reads it. -/
theorem sum_upper_mul (M : Table F) (m k : ℕ) (w : ℕ → F) :
    ∑ j ∈ range m, upper M k j * w j = ∑ j ∈ Ico k m, M k j * w j := by
  have hhead : ∀ j ∈ range m, j ∉ Ico k m → upper M k j * w j = 0 := fun j hj hjk => by
    rw [mem_range] at hj
    rw [mem_Ico] at hjk
    rw [upper_of_lt _ (by omega), zero_mul]
  have hsub : Ico k m ⊆ range m := fun j hj => mem_range.mpr (mem_Ico.mp hj).2
  rw [← sum_subset hsub hhead]
  exact sum_congr rfl fun j hj => by rw [upper_of_le _ (mem_Ico.mp hj).1]

/-- With full column rank the equations of the pivot rows are solved exactly by
what the two substitutions compute. -/
theorem Finished.solution_iff {A : Table F} {n m q : ℕ} {t : State F}
    (h : Finished A n m m q t) {y z w : ℕ → F}
    (hforward : ∀ i < m, z i + ∑ j ∈ range i, t.mat i j * z j = y i)
    (hback : ∀ i < m, ∑ j ∈ Ico i m, t.mat i j * w j = z i) (x : ℕ → F) :
    (∀ i < m, ∑ j ∈ range m, A (t.rowperm i) j * x j = y i) ↔ ∀ j < m, x j = w j := by
  have hrow : ∀ i < m, ∀ v : ℕ → F, ∑ j ∈ range m, A (t.rowperm i) j * v j =
      ∑ k ∈ range m, lower t.mat i k * ∑ j ∈ Ico k m, t.mat k j * v j := by
    intro i hi v
    calc
      ∑ j ∈ range m, A (t.rowperm i) j * v j
        = ∑ j ∈ range m, ∑ k ∈ range m, lower t.mat i k * (upper t.mat k j * v j) := by
          refine sum_congr rfl fun j hj => ?_
          have heq := h.factor_eq (hi.trans_le h.rank_le_rows) (mem_range.mp hj)
          rw [h.colperm_eq_self] at heq
          rw [heq, sum_mul]
          exact sum_congr rfl fun k _ => mul_assoc _ _ _
      _ = ∑ k ∈ range m, lower t.mat i k * ∑ j ∈ range m, upper t.mat k j * v j := by
          rw [sum_comm]
          exact sum_congr rfl fun k _ => (mul_sum _ _ _).symm
      _ = ∑ k ∈ range m, lower t.mat i k * ∑ j ∈ Ico k m, t.mat k j * v j :=
          sum_congr rfl fun k _ => by rw [sum_upper_mul]
  constructor
  · intro hx
    have hz : ∀ i < m, ∑ j ∈ Ico i m, t.mat i j * x j = z i := by
      refine forward_unique (fun i hi => ?_) hforward
      rw [← hx i hi, hrow i hi, sum_lower_mul _ hi]
    exact back_unique h.diag hz hback
  · intro hx i hi
    have hsub : ∀ k ∈ range m, lower t.mat i k * ∑ j ∈ Ico k m, t.mat k j * x j =
        lower t.mat i k * z k := fun k hk => by
      rw [← hback k (mem_range.mp hk)]
      congr 1
      exact sum_congr rfl fun j hj => by rw [hx j (mem_Ico.mp hj).2]
    rw [hrow i hi, sum_congr rfl hsub, sum_lower_mul _ hi, hforward i hi]

end Elimination
