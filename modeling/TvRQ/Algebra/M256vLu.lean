/-
# LU decomposition over GF(256)

`m256v_LU_decomp_inplace` computes an exact factorisation `P L U Q` of its
matrix, whatever the shape and the rank, and its pivot columns are the leftmost
basis of the column space.  Both follow from one fact: the decomposition does
the rounds of an elimination run, so what holds of finished runs holds of its
result.

A call of the field inverse on zero stops a run, and so does an access outside
the cells of the view that the heap does not have.  That the decomposition ends
is therefore part of each statement.
-/

import TvRQ.Algebra.M256vSpec
import TvRQ.Algebra.MvLu
import TvRQ.Lib.Pluq

namespace TvRQ

open Imperative Heap Elimination MvGen

namespace Lists

variable {xs : Array ℕ} {n : ℕ} {π : Equiv.Perm ℕ}

theorem getD_eq (h : Lists xs n π) {k : ℕ} (hk : k < n) : xs.getD k 0 = π k := by
  rw [Array.getD_eq_getD_getElem?, h.get_eq k hk]
  rfl

/-- An array that lists a permutation of the numbers below its length. -/
theorem toList_perm (h : Lists xs n π) (hlt : ∀ k, π k < n ↔ k < n) :
    xs.toList.Perm (List.range n) := by
  have hlist : xs.toList = (List.range n).map π := by
    apply List.ext_getElem?
    intro k
    rw [Array.getElem?_toList, List.getElem?_map]
    by_cases hk : k < n
    · rw [h.get_eq k hk, List.getElem?_range hk]
      rfl
    · have hsize : xs.size ≤ k := by rw [h.size_eq]; omega
      rw [Array.getElem?_eq_none hsize, List.getElem?_eq_none (by simpa using hk)]
      rfl
  rw [hlist]
  refine (List.perm_ext_iff_of_nodup (List.nodup_range.map π.injective) List.nodup_range).mpr
    fun k => ?_
  rw [List.mem_map, List.mem_range]
  constructor
  · rintro ⟨j, hj, rfl⟩
    exact (hlt j).mpr (List.mem_range.mp hj)
  · intro hk
    refine ⟨π.symm k, List.mem_range.mpr ((hlt _).mp ?_), π.apply_symm_apply k⟩
    rwa [π.apply_symm_apply]

end Lists

/-- `B` holds the two factors of the `n × m` table `A` with its rows and columns
permuted, and zeros behind them. -/
structure IsPluq (A : Table GF256) (n m r : ℕ) (rp cp : Array ℕ) (B : Table GF256) : Prop where
  rp_perm : rp.toList.Perm (List.range n)
  cp_perm : cp.toList.Perm (List.range m)
  diag : ∀ i < r, B i i ≠ 0
  block_zero : ∀ i j, r ≤ i → i < n → r ≤ j → j < m → B i j = 0
  factor : ∀ i < n, ∀ j < m, A (rp.getD i 0) (cp.getD j 0) =
    ∑ k ∈ Finset.range r, lower B i k * upper B k j

namespace M256v

variable {M : M256v} {h : Heap UInt8} {A : Table GF256}

/-- The operations on GF(256) views are lawful for every column offset. -/
theorem lawful (M : M256v) (h₀ : Heap UInt8) :
    Lawful M (fun h A => M.Holds h A ∧ AgreeOff M.cells h₀ h) GF256.byte Set.univ where
  congr := fun hA heq => ⟨hA.1.congr heq, hA.2⟩
  el_eq_zero := fun {_} => GF256.ext_iff'.symm
  getEl_iff := fun hA hr hc => hA.1.ends_getEl hr hc
  swapRows_ends := fun hA hr₁ hr₂ => (swapRows_ends hA.1 hr₁ hr₂).mono fun _ _ hpost =>
    ⟨hpost.1, hA.2.trans hpost.2⟩
  swapCols_ends := fun hA hrow hc₁ hc₂ => (swapCols_ends hA.1 hrow hc₁ hc₂).mono
    fun _ _ hpost => ⟨hpost.1, hA.2.trans hpost.2⟩
  finv_eq := fun hv => gf256Inv_eq_ok hv
  multColFrom_ends := fun hA hc hoffs _ => (multColFrom_ends hA.1 hc hoffs _).mono
    fun _ _ hpost => ⟨hpost.1, hA.2.trans hpost.2⟩
  multaddRowFrom_ends := fun hA hr ht _ hoffs _ =>
    (multaddRowFrom_ends hA.1 rfl hr ht hoffs (hA.1.source_self hr) _).mono
      fun _ _ hpost => ⟨hpost.1, hA.2.trans (hpost.2.mono (rowCells_subset ht))⟩

/-- The result of the decomposition is the one of a finished elimination run. -/
theorem luDecompInplace_run (hA : M.Holds h A) :
    Ends (luDecompInplace M) h fun out h' => ∃ t : State GF256,
      Run M.nRow M.nCol 0 (State.init A) out.1 t ∧ Lists out.2.1 M.nRow t.rowperm ∧
        Lists out.2.2 M.nCol t.colperm ∧ M.Holds h' t.mat ∧ AgreeOff M.cells h h' := by
  refine ((lawful M h).luDecompInplace_ends ⟨hA, AgreeOff.refl _ h⟩
    fun _ _ _ => Set.mem_univ _).mono fun out h' hpost => ?_
  obtain ⟨t, hrun, ht⟩ := hpost
  exact ⟨t, hrun, ht.rows, ht.cols, ht.mat.1, ht.mat.2⟩

/-- The decomposition ends, for every shape and every rank, with a factorisation
of the matrix; the number it returns is the rank. -/
theorem luDecompInplace_isPluq (hA : M.Holds h A) :
    Ends (luDecompInplace M) h fun out h' => ∃ B : Table GF256,
      M.Holds h' B ∧ AgreeOff M.cells h h' ∧
        IsPluq A M.nRow M.nCol out.1 out.2.1 out.2.2 B ∧
        (A.toMatrix M.nRow M.nCol).rank = out.1 := by
  refine (luDecompInplace_run hA).mono fun out h' hpost => ?_
  obtain ⟨t, hrun, hrows, hcols, hmat, hagree⟩ := hpost
  obtain ⟨q, ht⟩ := hrun.finished
  refine ⟨t.mat, hmat, hagree, ?_, ht.rank_eq⟩
  exact {
    rp_perm := hrows.toList_perm fun _ => ht.rowperm_lt
    cp_perm := hcols.toList_perm fun _ => ht.colperm_lt
    diag := ht.diag
    block_zero := fun i j hi hin hj hjm => ht.block_zero i j hi hin hj hjm
    factor := fun i hi j hj => by
      rw [hrows.getD_eq hi, hcols.getD_eq hj]
      exact ht.factor_eq hi hj }

/-- The factorisation of a wide matrix of rank one, whose pivot is neither in
the first row nor in the first column. -/
theorem luDecompInplace_isPluq_wide :
    Ends (luDecompInplace (make 2 3 ⟨0, 0⟩)) ⟨#[#[0, 0, 0, 0, 7, 9]]⟩ fun out h' =>
      ∃ B : Table GF256, (make 2 3 ⟨0, 0⟩).Holds h' B ∧
        AgreeOff (make 2 3 ⟨0, 0⟩).cells ⟨#[#[0, 0, 0, 0, 7, 9]]⟩ h' ∧
        IsPluq (rowMajor 3 #[0, 0, 0, 0, 7, 9]) 2 3 out.1 out.2.1 out.2.2 B ∧
        ((rowMajor 3 #[0, 0, 0, 0, 7, 9]).toMatrix 2 3).rank = out.1 :=
  luDecompInplace_isPluq (holds_make rfl (by decide))

/-- The first columns after the permutation are, in increasing order, exactly the
columns that are no linear combination of the columns left of them. -/
theorem luDecompInplace_pivot_columns (hA : M.Holds h A) :
    Ends (luDecompInplace M) h fun out _ =>
      (∀ j k, j < k → k < out.1 → out.2.2.getD j 0 < out.2.2.getD k 0) ∧
        (∀ c < M.nCol, (∃ k < out.1, out.2.2.getD k 0 = c) ↔
          A.column M.nRow c ∉ Submodule.span GF256 (A.column M.nRow '' Set.Iio c)) ∧
        (out.1 = M.nCol → ∀ c < M.nCol, out.2.2.getD c 0 = c) := by
  refine (luDecompInplace_run hA).mono fun out h' hpost => ?_
  obtain ⟨t, hrun, -, hcols, -, -⟩ := hpost
  obtain ⟨q, ht⟩ := hrun.finished
  have hcol : ∀ k < out.1, out.2.2.getD k 0 = t.colperm k := fun k hk =>
    hcols.getD_eq (hk.trans_le ht.rank_le_cols)
  refine ⟨fun j k hjk hk => ?_, fun c hc => ?_, fun hrank c hc => ?_⟩
  · rw [hcol j (hjk.trans hk), hcol k hk]
    exact ht.pivot_strict j k hjk hk
  · rw [← ht.pivot_iff hc]
    constructor
    · rintro ⟨k, hk, heq⟩
      exact ⟨k, hk, by rw [← hcol k hk, heq]⟩
    · rintro ⟨k, hk, heq⟩
      exact ⟨k, hk, by rw [hcol k hk, heq]⟩
  · rw [hcols.getD_eq hc]
    rw [hrank] at ht
    exact ht.colperm_eq_self c

/-- The pivot columns of a matrix whose first column is zero. -/
theorem luDecompInplace_pivot_columns_wide :
    Ends (luDecompInplace (make 2 3 ⟨0, 0⟩)) ⟨#[#[0, 0, 0, 0, 7, 9]]⟩ fun out _ =>
      (∀ j k, j < k → k < out.1 → out.2.2.getD j 0 < out.2.2.getD k 0) ∧
        (∀ c < 3, (∃ k < out.1, out.2.2.getD k 0 = c) ↔
          (rowMajor 3 #[0, 0, 0, 0, 7, 9]).column 2 c ∉ Submodule.span GF256
            ((rowMajor 3 #[0, 0, 0, 0, 7, 9]).column 2 '' Set.Iio c)) ∧
        (out.1 = 3 → ∀ c < 3, out.2.2.getD c 0 = c) :=
  luDecompInplace_pivot_columns (M := make 2 3 ⟨0, 0⟩) (holds_make rfl (by decide))

end M256v

end TvRQ
