/-
# Elimination with row pivoting

Gaussian elimination in place, over any field.  A state holds one table that
is the lower factor, the upper factor and the block still to be eliminated at
once, together with the row and column permutations made so far.  The pivot is
the first nonzero entry of that block in column-major order; the run stops
when the block is zero.
-/

import Mathlib.LinearAlgebra.Matrix.Rank
import TvRQ.Lib.Table

namespace Elimination

open Finset

variable {F : Type*} [Field F]

/-- `(prow, pcol)` is the first nonzero entry, column by column, of the block
that starts at `(i, i)`. -/
structure IsPivot (M : Table F) (n m i prow pcol : ℕ) : Prop where
  row_ge : i ≤ prow
  row_lt : prow < n
  col_ge : i ≤ pcol
  col_lt : pcol < m
  ne_zero : M prow pcol ≠ 0
  above : ∀ r, i ≤ r → r < prow → M r pcol = 0
  left : ∀ c, i ≤ c → c < pcol → ∀ r, i ≤ r → r < n → M r c = 0

/-- The block that starts at `(i, i)` is zero. -/
def BlockZero (M : Table F) (n m i : ℕ) : Prop :=
  ∀ r c, i ≤ r → r < n → i ≤ c → c < m → M r c = 0

/-- Divide the column of the pivot at `(i, i)` and clear it below the pivot. -/
def eliminate (M : Table F) (i : ℕ) : Table F := fun r c =>
  if r ≤ i ∨ c < i then M r c
  else if c = i then M r i / M i i
  else M r c - M r i / M i i * M i c

/-- Up to the column of the pivot, elimination is a division of this column. -/
theorem eliminate_of_le (M : Table F) {i r c : ℕ} (hc : c ≤ i) :
    eliminate M i r c = M.multColFrom i (i + 1) (M i i)⁻¹ r c := by
  rcases Nat.lt_or_ge i r with hr | hr
  · rcases hc.lt_or_eq with hlt | rfl
    · simp [eliminate, Table.multColFrom, hlt, hlt.ne]
    · simp [eliminate, Table.multColFrom, hr, hr.not_ge, div_eq_inv_mul]
  · simp [eliminate, Table.multColFrom, hr, hr.not_gt]

/-- The working table and the permutations, in "from" form. -/
@[ext]
structure State (F : Type*) where
  mat : Table F
  rowperm : Equiv.Perm ℕ
  colperm : Equiv.Perm ℕ

/-- Nothing has been done to `A` yet. -/
def State.init (A : Table F) : State F := ⟨A, 1, 1⟩

/-- Bring row `prow` and column `pcol` to position `i`. -/
def State.exchange (s : State F) (i prow pcol : ℕ) : State F where
  mat := (s.mat.swapRows i prow).swapCols i pcol
  rowperm := s.rowperm * Equiv.swap i prow
  colperm := s.colperm * Equiv.swap i pcol

/-- One round of elimination with the given pivot. -/
def State.pivot (s : State F) (i prow pcol : ℕ) : State F :=
  { s.exchange i prow pcol with mat := eliminate (s.exchange i prow pcol).mat i }

/-- `Run n m i s r t`: the rounds from `i` on lead from `s` to `t` and stop at `r`. -/
inductive Run (n m : ℕ) : ℕ → State F → ℕ → State F → Prop
  | stop {i : ℕ} {s : State F} (hzero : BlockZero s.mat n m i) : Run n m i s i s
  | step {i prow pcol r : ℕ} {s t : State F} (hpivot : IsPivot s.mat n m i prow pcol)
      (hrest : Run n m (i + 1) (s.pivot i prow pcol) r t) : Run n m i s r t

/-! ## The run is determined by its start -/

theorem IsPivot.unique {M : Table F} {n m i prow pcol prow' pcol' : ℕ}
    (h : IsPivot M n m i prow pcol) (h' : IsPivot M n m i prow' pcol') :
    prow = prow' ∧ pcol = pcol' := by
  have hcol : pcol = pcol' := by
    rcases lt_trichotomy pcol pcol' with hlt | heq | hgt
    · exact absurd (h'.left pcol h.col_ge hlt prow h.row_ge h.row_lt) h.ne_zero
    · exact heq
    · exact absurd (h.left pcol' h'.col_ge hgt prow' h'.row_ge h'.row_lt) h'.ne_zero
  subst hcol
  rcases lt_trichotomy prow prow' with hlt | heq | hgt
  · exact absurd (h'.above prow h.row_ge hlt) h.ne_zero
  · exact ⟨heq, rfl⟩
  · exact absurd (h.above prow' h'.row_ge hgt) h'.ne_zero

theorem IsPivot.not_blockZero {M : Table F} {n m i prow pcol : ℕ}
    (h : IsPivot M n m i prow pcol) : ¬ BlockZero M n m i :=
  fun hzero => h.ne_zero (hzero prow pcol h.row_ge h.row_lt h.col_ge h.col_lt)

theorem Run.unique {n m i r r' : ℕ} {s t t' : State F} (h : Run n m i s r t)
    (h' : Run n m i s r' t') : r = r' ∧ t = t' := by
  induction h with
  | stop hzero =>
      cases h' with
      | stop _ => exact ⟨rfl, rfl⟩
      | step hpivot _ => exact absurd hzero hpivot.not_blockZero
  | step hpivot _ ih =>
      cases h' with
      | stop hzero => exact absurd hzero hpivot.not_blockZero
      | step hpivot' hrest' =>
          obtain ⟨rfl, rfl⟩ := hpivot.unique hpivot'
          exact ih hrest'

/-! ## Extending the field -/

section Extension

variable {K : Type*} [Field K] (f : F →+* K)

/-- The same state with its entries read in a larger field. -/
def State.map (s : State F) : State K := ⟨s.mat.map f, s.rowperm, s.colperm⟩

theorem IsPivot.map {M : Table F} {n m i prow pcol : ℕ} (h : IsPivot M n m i prow pcol) :
    IsPivot (M.map f) n m i prow pcol where
  row_ge := h.row_ge
  row_lt := h.row_lt
  col_ge := h.col_ge
  col_lt := h.col_lt
  ne_zero := (map_ne_zero f).mpr h.ne_zero
  above := fun r hr hlt => by rw [Table.map, h.above r hr hlt, map_zero]
  left := fun c hc hlt r hr hrn => by rw [Table.map, h.left c hc hlt r hr hrn, map_zero]

theorem State.map_pivot (s : State F) (i prow pcol : ℕ) :
    (s.pivot i prow pcol).map f = (s.map f).pivot i prow pcol := by
  have hmat : ((s.pivot i prow pcol).map f).mat = ((s.map f).pivot i prow pcol).mat := by
    funext r c
    simp only [State.map, State.pivot, State.exchange, eliminate, Table.map, Table.swapRows,
      Table.swapCols]
    split_ifs <;> simp
  exact State.ext hmat rfl rfl

/-- Elimination does not notice that the field is larger than it has to be. -/
theorem Run.map {n m i r : ℕ} {s t : State F} (h : Run n m i s r t) :
    Run n m i (s.map f) r (t.map f) := by
  induction h with
  | stop hzero =>
      refine Run.stop fun r c hr hrn hc hcm => ?_
      show f (_ : F) = 0
      rw [hzero r c hr hrn hc hcm, map_zero]
  | step hpivot _ ih =>
      refine Run.step (hpivot.map f) ?_
      rwa [← State.map_pivot]

end Extension

/-! ## Partial factorisation -/

/-- Entry `(r, k)` of the unit lower triangular factor stored in `M`. -/
def lower (M : Table F) (r k : ℕ) : F :=
  if r = k then 1 else if k < r then M r k else 0

/-- Entry `(k, c)` of the upper triangular factor stored in `M`. -/
def upper (M : Table F) (k c : ℕ) : F :=
  if k ≤ c then M k c else 0

@[simp]
theorem lower_self (M : Table F) (k : ℕ) : lower M k k = 1 := by simp [lower]

theorem lower_of_lt (M : Table F) {r k : ℕ} (h : r < k) : lower M r k = 0 := by
  simp [lower, h.ne, h.not_gt]

theorem lower_of_gt (M : Table F) {r k : ℕ} (h : k < r) : lower M r k = M r k := by
  simp [lower, h.ne', h]

theorem upper_of_le (M : Table F) {k c : ℕ} (h : k ≤ c) : upper M k c = M k c := by
  simp [upper, h]

theorem upper_of_lt (M : Table F) {k c : ℕ} (h : c < k) : upper M k c = 0 := by
  simp [upper, h.not_ge]

/-- What the table stands for after `i` rounds: the product of the finished
parts of the factors, plus the block that is left. -/
def product (M : Table F) (i r c : ℕ) : F :=
  (∑ k ∈ range i, lower M r k * upper M k c) + if i ≤ r ∧ i ≤ c then M r c else 0

/-- Exchanges at and behind `i` only rename the rows and columns. -/
theorem product_exchange (M : Table F) {i prow pcol : ℕ} (hrow : i ≤ prow) (hcol : i ≤ pcol)
    (r c : ℕ) :
    product ((M.swapRows i prow).swapCols i pcol) i r c =
      product M i (Equiv.swap i prow r) (Equiv.swap i pcol c) := by
  have hfix : ∀ {p k : ℕ}, i ≤ p → k < i → Equiv.swap i p k = k := fun hp hk =>
    Equiv.swap_apply_of_ne_of_ne (by omega) (by omega)
  have hge : ∀ {p x : ℕ}, i ≤ p → i ≤ x → i ≤ Equiv.swap i p x := fun {p x} hp hx => by
    rw [Equiv.swap_apply_def]
    split_ifs <;> omega
  have hle : ∀ {p x : ℕ}, i ≤ p → (i ≤ Equiv.swap i p x ↔ i ≤ x) := fun {p x} hp =>
    ⟨fun h => by by_contra hx; rw [hfix hp (by omega)] at h; exact hx h, hge hp⟩
  unfold product
  congr 1
  · refine sum_congr rfl fun k hk => ?_
    have hki : k < i := mem_range.mp hk
    congr 1
    · rcases lt_or_ge r i with hr | hr
      · simp [lower, Table.swapCols, Table.swapRows, hfix hrow hr, hfix hcol hki]
      · rw [lower_of_gt _ (hki.trans_le hr), lower_of_gt _ (hki.trans_le (hge hrow hr))]
        simp [Table.swapCols, Table.swapRows, hfix hcol hki]
    · rcases lt_or_ge c i with hc | hc
      · simp [upper, Table.swapCols, Table.swapRows, hfix hcol hc, hfix hrow hki]
      · rw [upper_of_le _ (hki.le.trans hc), upper_of_le _ (hki.le.trans (hge hcol hc))]
        simp [Table.swapCols, Table.swapRows, hfix hrow hki]
  · simp only [hle hrow, hle hcol, Table.swapCols, Table.swapRows]

/-- A round moves one term of the product out of the block that is left. -/
theorem product_eliminate (M : Table F) {i : ℕ} (hii : M i i ≠ 0) (r c : ℕ) :
    product (eliminate M i) (i + 1) r c = product M i r c := by
  have hlow : ∀ k < i, lower (eliminate M i) r k = lower M r k := fun k hk => by
    simp [lower, eliminate, hk]
  have hup : ∀ k < i, upper (eliminate M i) k c = upper M k c := fun k hk => by
    simp [upper, eliminate, hk.le]
  have hsum : ∑ k ∈ range i, lower (eliminate M i) r k * upper (eliminate M i) k c =
      ∑ k ∈ range i, lower M r k * upper M k c := by
    refine sum_congr rfl fun k hk => ?_
    rw [hlow k (mem_range.mp hk), hup k (mem_range.mp hk)]
  unfold product
  rw [sum_range_succ, hsum, add_assoc]
  congr 1
  rcases lt_trichotomy r i with hr | rfl | hr
  · rw [lower_of_lt _ hr, if_neg (by omega), if_neg (by omega)]
    ring
  · rcases lt_or_ge c r with hc | hc
    · rw [upper_of_lt _ hc, if_neg (by omega), if_neg (by omega)]
      ring
    · rw [lower_self, upper_of_le _ hc, if_neg (by omega), if_pos ⟨le_rfl, hc⟩]
      simp [eliminate]
  · rcases lt_trichotomy c i with hc | rfl | hc
    · rw [upper_of_lt _ hc, if_neg (by omega), if_neg (by omega)]
      ring
    · rw [lower_of_gt _ hr, upper_of_le _ le_rfl, if_neg (by omega), if_pos ⟨hr.le, le_rfl⟩]
      simp [eliminate, hr.not_ge, div_mul_cancel₀ _ hii]
    · rw [lower_of_gt _ hr, upper_of_le _ hc.le, if_pos ⟨hr, hc⟩, if_pos ⟨hr.le, hc.le⟩]
      simp [eliminate, hr.not_ge, hc.not_gt, hc.ne']

end Elimination
