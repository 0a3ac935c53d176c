/-
# The determinant after an elimination

A finished elimination leaves the determinant of a square matrix on the diagonal
of its table, up to the signs of the two permutations.  For a singular matrix
the run stops early and the rest of the diagonal belongs to the block that is
left; this block is zero, so the same product over the whole diagonal serves for
every rank.
-/

import Mathlib.Algebra.CharP.Two
import Mathlib.LinearAlgebra.Matrix.Block
import TvRQ.Lib.Pluq

namespace Elimination

open Finset Matrix

variable {F : Type*} [Field F] {A : Table F} {n : ℕ}

/-! ## Permutations and signs -/

/-- A permutation that keeps the numbers below `n` among themselves. -/
def permFin (π : Equiv.Perm ℕ) (hπ : ∀ k, π k < n ↔ k < n) : Equiv.Perm (Fin n) :=
  Fin.equivSubtype.symm.permCongr (π.subtypePerm hπ)

@[simp]
theorem permFin_apply (π : Equiv.Perm ℕ) (hπ : ∀ k, π k < n ↔ k < n) (i : Fin n) :
    (permFin π hπ i : ℕ) = π i := rfl

/-- Permuting rows and columns multiplies the determinant with both signs. -/
theorem det_submatrix_perm (B : Matrix (Fin n) (Fin n) F) (ρ τ : Equiv.Perm (Fin n)) :
    (B.submatrix ρ τ).det = ρ.sign * (τ.sign * B.det) := by
  have hsplit : B.submatrix ρ τ = (B.submatrix id τ).submatrix ρ id := rfl
  rw [hsplit, det_permute, det_permute']

/-- There are no signs in characteristic two. -/
theorem sign_eq_one [CharP F 2] (π : Equiv.Perm (Fin n)) : ((π.sign : ℤ) : F) = 1 := by
  rcases Int.units_eq_one_or π.sign with hsign | hsign
  · simp [hsign]
  · simp [hsign, CharTwo.neg_eq]

/-! ## The two factors -/

/-- The unit lower triangular factor stored in `M`. -/
def lowerMatrix (M : Table F) (n : ℕ) : Matrix (Fin n) (Fin n) F :=
  Matrix.of fun i k => lower M i k

/-- The upper triangular factor stored in `M`. -/
def upperMatrix (M : Table F) (n : ℕ) : Matrix (Fin n) (Fin n) F :=
  Matrix.of fun k j => upper M k j

theorem det_lowerMatrix (M : Table F) (n : ℕ) : (lowerMatrix M n).det = 1 := by
  have htri : (lowerMatrix M n).IsLowerTriangular := fun _ _ hlt => lower_of_lt M hlt
  rw [det_of_isLowerTriangular _ htri]
  exact prod_eq_one fun i _ => lower_self M i

theorem det_upperMatrix (M : Table F) (n : ℕ) :
    (upperMatrix M n).det = ∏ i ∈ range n, M i i := by
  have htri : (upperMatrix M n).IsUpperTriangular := fun _ _ hlt => upper_of_lt M hlt
  rw [det_of_isUpperTriangular htri, ← Fin.prod_univ_eq_prod_range (fun i => M i i) n]
  exact prod_congr rfl fun i _ => upper_of_le M le_rfl

/-! ## Finished runs -/

namespace Finished

variable {r q : ℕ} {t : State F}

/-- Behind the rank the upper factor is zero, so the product may go on to the end. -/
theorem factor_eq_square (h : Finished A n n r q t) {i j : ℕ} (hi : i < n) (hj : j < n) :
    A (t.rowperm i) (t.colperm j) = ∑ k ∈ range n, lower t.mat i k * upper t.mat k j := by
  have hsub : range r ⊆ range n := range_subset_range.mpr h.rank_le_rows
  rw [h.factor_eq hi hj]
  refine sum_subset hsub fun k hk hkr => ?_
  rw [mem_range] at hk hkr
  have hzero : upper t.mat k j = 0 := by
    rcases lt_or_ge j k with hjk | hkj
    · exact upper_of_lt _ hjk
    · rw [upper_of_le _ hkj]
      exact h.block_zero k j (not_lt.mp hkr) hk ((not_lt.mp hkr).trans hkj) hj
  rw [hzero, mul_zero]

theorem submatrix_eq (h : Finished A n n r q t) :
    (A.toMatrix n n).submatrix (permFin t.rowperm fun _ => h.rowperm_lt)
      (permFin t.colperm fun _ => h.colperm_lt) = lowerMatrix t.mat n * upperMatrix t.mat n := by
  ext i j
  rw [Matrix.mul_apply]
  simp only [submatrix_apply, Table.toMatrix, lowerMatrix, upperMatrix, of_apply, permFin_apply]
  rw [h.factor_eq_square i.isLt j.isLt,
    Fin.sum_univ_eq_sum_range (fun k => lower t.mat i k * upper t.mat k j) n]

/-- The determinant, up to the signs of the permutations. -/
theorem sign_mul_det (h : Finished A n n r q t) :
    ((permFin t.rowperm fun _ => h.rowperm_lt).sign : F) *
        ((permFin t.colperm fun _ => h.colperm_lt).sign * (A.toMatrix n n).det) =
      ∏ i ∈ range n, t.mat i i := by
  rw [← det_submatrix_perm, h.submatrix_eq, det_mul, det_lowerMatrix, det_upperMatrix, one_mul]

/-- In characteristic two the determinant is the product of the diagonal. -/
theorem det_eq [CharP F 2] (h : Finished A n n r q t) :
    (A.toMatrix n n).det = ∏ i ∈ range n, t.mat i i := by
  rw [← h.sign_mul_det, sign_eq_one, sign_eq_one, one_mul, one_mul]

end Finished

end Elimination
