/-
# Products with the factors

Multiplying with the two factors that an elimination leaves in one table is
multiplying with the matrix they came from, up to the two permutations.  Hence
the substitutions find a solution whenever there is one: what they compute has
the same product with the upper factor as any solution.
-/

import TvRQ.Lib.Triangular

namespace Elimination

open Finset

variable {F : Type*} [Field F]

/-- The product of the first `m` columns of `A` with the rows of `X`. -/
def times (A : Table F) (m : ℕ) (X : Table F) : Table F :=
  fun i c => ∑ j ∈ range m, A i j * X j c

/-- The product with the upper factor in `M`, whose rows have `m` columns. -/
def timesU (M : Table F) (m : ℕ) (X : Table F) : Table F :=
  fun i c => ∑ j ∈ Ico i m, M i j * X j c

/-- The product with the lower factor in `M`, which has a unit diagonal and `m`
columns. -/
def timesL (M : Table F) (m : ℕ) (Z : Table F) : Table F :=
  fun i c => (if i < m then Z i c else 0) + ∑ j ∈ range (min i m), M i j * Z j c

theorem timesU_of_le {M X : Table F} {m i : ℕ} (hi : m ≤ i) (c : ℕ) : timesU M m X i c = 0 := by
  rw [timesU, Ico_eq_empty_of_le hi, sum_empty]

theorem timesL_of_lt {M Z : Table F} {m i : ℕ} (hi : i < m) (c : ℕ) :
    timesL M m Z i c = Z i c + ∑ j ∈ range i, M i j * Z j c := by
  rw [timesL, if_pos hi, min_eq_left hi.le]

theorem timesL_of_zero {M Z : Table F} {m i c : ℕ} (hzero : m ≤ i → Z i c = 0) :
    timesL M m Z i c = Z i c + ∑ j ∈ range (min i m), M i j * Z j c := by
  rw [timesL]
  split_ifs with hi
  · rfl
  · rw [hzero (not_lt.mp hi)]

/-- A product with the lower factor reads no row behind its own and none from row
`m` on. -/
theorem timesL_congr {M Z Z' : Table F} {m i c : ℕ}
    (h : ∀ k ≤ i, k < m → Z k c = Z' k c) : timesL M m Z i c = timesL M m Z' i c := by
  have hhead : (if i < m then Z i c else 0) = if i < m then Z' i c else 0 := by
    split_ifs with hi
    · exact h i le_rfl hi
    · rfl
  rw [timesL, timesL, hhead]
  congr 1
  apply sum_congr rfl
  intro j hj
  obtain ⟨hji, hjm⟩ := lt_min_iff.mp (mem_range.mp hj)
  rw [h j hji.le hjm]

/-- Two ranges give one sum when nothing is added between their ends. -/
theorem sum_range_eq {f : ℕ → F} {a b : ℕ} (h : ∀ k, min a b ≤ k → k < max a b → f k = 0) :
    ∑ k ∈ range a, f k = ∑ k ∈ range b, f k := by
  have hmax : ∀ e, min a b ≤ e → e ≤ max a b → ∑ k ∈ range e, f k = ∑ k ∈ range (max a b), f k := by
    intro e hlo hhi
    apply sum_subset (range_subset_range.mpr hhi)
    intro k hk hke
    exact h k (hlo.trans (not_lt.mp fun hlt => hke (mem_range.mpr hlt))) (mem_range.mp hk)
  rw [hmax a (min_le_left a b) (le_max_left a b), hmax b (min_le_right a b) (le_max_right a b)]

/-- A product with the lower factor, of which `r` columns meet something. -/
theorem sum_lower_eq_timesL {M Z : Table F} {r m n i c : ℕ} (hrm : r ≤ m) (hi : i < n)
    (hzero : ∀ k, r ≤ k → k < n → Z k c = 0) :
    ∑ k ∈ range r, lower M i k * Z k c = timesL M m Z i c := by
  by_cases him : i < m
  · rw [timesL_of_lt him, ← sum_lower_mul M (Nat.lt_succ_self i) fun k => Z k c]
    apply sum_range_eq
    intro k hlo hhi
    by_cases hk : i < k
    · rw [lower_of_lt _ hk, zero_mul]
    · rw [hzero k (by omega) (by omega), mul_zero]
  · rw [timesL, if_neg him, zero_add, min_eq_right (not_lt.mp him)]
    have hlower : ∀ k ∈ range m, lower M i k * Z k c = M i k * Z k c := by
      intro k hk
      rw [lower_of_gt _ ((mem_range.mp hk).trans_le (not_lt.mp him))]
    rw [← sum_congr rfl hlower]
    apply sum_range_eq
    intro k hlo hhi
    rw [hzero k (by omega) (by omega), mul_zero]

namespace Finished

variable {A : Table F} {n m r q : ℕ} {t : State F}

/-- The sum of a row does not depend on the order of the columns. -/
theorem sum_colperm (h : Finished A n m r q t) (f : ℕ → F) :
    ∑ j ∈ range m, f (t.colperm j) = ∑ j ∈ range m, f j := by
  apply sum_equiv t.colperm
  · intro j
    rw [mem_range, mem_range, h.colperm_lt]
  · exact fun _ _ => rfl

theorem timesU_eq_zero (h : Finished A n m r q t) (X : Table F) {k : ℕ} (hrk : r ≤ k)
    (hk : k < n) (c : ℕ) : timesU t.mat m X k c = 0 := by
  apply sum_eq_zero
  intro j hj
  rw [mem_Ico] at hj
  rw [h.block_zero k j hrk hk (hrk.trans hj.1) hj.2, zero_mul]

/-- The matrix is the product of its factors. -/
theorem times_rowperm (h : Finished A n m r q t) (X : Table F) {i : ℕ} (hi : i < n) (c : ℕ) :
    times A m X (t.rowperm i) c =
      timesL t.mat m (timesU t.mat m fun j => X (t.colperm j)) i c := by
  calc
    times A m X (t.rowperm i) c
      = ∑ j ∈ range m, A (t.rowperm i) (t.colperm j) * X (t.colperm j) c :=
        (h.sum_colperm fun j => A (t.rowperm i) j * X j c).symm
    _ = ∑ j ∈ range m, ∑ k ∈ range r,
          lower t.mat i k * (upper t.mat k j * X (t.colperm j) c) := by
        apply sum_congr rfl
        intro j hj
        rw [h.factor_eq hi (mem_range.mp hj), sum_mul]
        exact sum_congr rfl fun k _ => mul_assoc _ _ _
    _ = ∑ k ∈ range r, lower t.mat i k * timesU t.mat m (fun j => X (t.colperm j)) k c := by
        rw [sum_comm]
        apply sum_congr rfl
        intro k _
        rw [← mul_sum, sum_upper_mul t.mat m k fun j => X (t.colperm j) c, timesU]
    _ = timesL t.mat m (timesU t.mat m fun j => X (t.colperm j)) i c :=
        sum_lower_eq_timesL h.rank_le_cols hi fun k hrk hk => h.timesU_eq_zero _ hrk hk c

/-- Every row below `n` is the row of some index. -/
theorem exists_rowperm (h : Finished A n m r q t) {i : ℕ} (hi : i < n) :
    ∃ k < n, t.rowperm k = i := by
  refine ⟨t.rowperm.symm i, ?_, t.rowperm.apply_symm_apply i⟩
  rwa [← h.rowperm_lt, t.rowperm.apply_symm_apply]

/-- The product with the upper factor is what forward substitution finds. -/
theorem timesU_eq_forward (h : Finished A n m r q t) {X Z : Table F} {c : ℕ}
    (hforward : ∀ i < r, Z i c + ∑ j ∈ range i, t.mat i j * Z j c =
      times A m X (t.rowperm i) c) :
    ∀ k < r, timesU t.mat m (fun j => X (t.colperm j)) k c = Z k c := by
  refine forward_unique (M := t.mat) (fun i hi => ?_) hforward
  rw [h.times_rowperm X (hi.trans_le h.rank_le_rows), timesL_of_lt (hi.trans_le h.rank_le_cols)]

/-- Matrices with the same product with the upper factor have the same product. -/
theorem times_congr (h : Finished A n m r q t) {X X' : Table F} {c : ℕ}
    (hupper : ∀ k < r, timesU t.mat m (fun j => X (t.colperm j)) k c =
      timesU t.mat m (fun j => X' (t.colperm j)) k c) {i : ℕ} (hi : i < n) :
    times A m X i c = times A m X' i c := by
  obtain ⟨k, hk, rfl⟩ := h.exists_rowperm hi
  rw [h.times_rowperm X hk, h.times_rowperm X' hk]
  apply timesL_congr
  intro j hj _
  by_cases hjr : j < r
  · exact hupper j hjr
  · have hjn := hj.trans_lt hk
    rw [h.timesU_eq_zero _ (not_lt.mp hjr) hjn, h.timesU_eq_zero _ (not_lt.mp hjr) hjn]

/-- The substitutions find a solution if there is one. -/
theorem times_solution (h : Finished A n m r q t) {X X₀ Y Z W : Table F} {c : ℕ}
    (hsol : ∀ i < n, times A m X₀ i c = Y i c)
    (hforward : ∀ i < r, Z i c + ∑ j ∈ range i, t.mat i j * Z j c = Y (t.rowperm i) c)
    (hback : ∀ i < r, ∑ j ∈ Ico i m, t.mat i j * W j c = Z i c)
    (hX : ∀ j < m, X (t.colperm j) c = W j c) {i : ℕ} (hi : i < n) :
    times A m X i c = Y i c := by
  rw [← hsol i hi]
  refine h.times_congr (fun k hk => ?_) hi
  have hX₀ := h.timesU_eq_forward (X := X₀) (Z := Z) (c := c) fun i hi => by
    rw [hforward i hi, hsol _ (h.rowperm_lt.mpr (hi.trans_le h.rank_le_rows))]
  rw [hX₀ k hk, ← hback k hk, timesU]
  exact sum_congr rfl fun j hj => congrArg (t.mat k j * ·) (hX j (mem_Ico.mp hj).2)

/-- With full column rank there is at most one solution. -/
theorem solution_unique (h : Finished A n m m q t) {X X' : Table F} {c : ℕ}
    (heq : ∀ i < n, times A m X i c = times A m X' i c) :
    ∀ j < m, X j c = X' j c := by
  have hX := h.timesU_eq_forward (X := X)
    (Z := timesU t.mat m fun j => X' (t.colperm j)) (c := c) fun i hi => by
      have hin := hi.trans_le h.rank_le_rows
      rw [heq _ (h.rowperm_lt.mpr hin), h.times_rowperm X' hin, timesL_of_lt hi]
  simp only [timesU, h.colperm_eq_self] at hX
  exact back_unique h.diag hX fun _ _ => rfl

end Finished

end Elimination
