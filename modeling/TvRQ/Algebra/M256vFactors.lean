/-
# Working with the decomposition over GF(256)

Determinants, products and solutions through the result of
`m256v_LU_decomp_inplace` are those of the matrix that was decomposed, for every
shape and every rank.
-/

import TvRQ.Algebra.M256vLu
import TvRQ.Algebra.M256vView
import TvRQ.Algebra.MvSolve
import TvRQ.Lib.Determinant

namespace TvRQ

open Imperative Heap Elimination Finset MvGen

/-! ## Inverting a permutation -/

/-- Invert the permutation in the array `orig`. -/
def permInvert {σ : Type} (n : ℕ) (orig invertedOut : Array ℕ) : Prog σ (Array ℕ) :=
  foldRange 0 n invertedOut fun i out => do
    let k ← readArray orig i
    writeArray out k i

/-- `q` has the inverse of the permutation in `p`. -/
structure InvertsPerm (q p : Array ℕ) (n : ℕ) : Prop where
  size_eq : q.size = n
  getD_getD : ∀ i < n, q.getD (p.getD i 0) 0 = i

section Inverse

variable {p q : Array ℕ} {n : ℕ} {π : Equiv.Perm ℕ} {σ : Type} {s : σ}

theorem Lists.symm (hp : Lists p n π) (hlt : ∀ k, π k < n ↔ k < n) (hq : InvertsPerm q p n) :
    Lists q n π.symm where
  size_eq := hq.size_eq
  get_eq := by
    intro k hk
    have hk' : π.symm k < n := by rwa [← hlt, π.apply_symm_apply]
    have hget := hq.getD_getD (π.symm k) hk'
    rw [hp.getD_eq hk', π.apply_symm_apply, Array.getD_eq_getD_getElem?,
      Array.getElem?_eq_getElem (hq.size_eq ▸ hk)] at hget
    rw [Array.getElem?_eq_getElem (hq.size_eq ▸ hk)]
    exact congrArg some hget

theorem permInvert_ends (hp : Lists p n π) (hlt : ∀ k, π k < n ↔ k < n) (hq : q.size = n) :
    Ends (permInvert n p q) s fun q' s' => s' = s ∧ InvertsPerm q' p n := by
  have hloop : Ends (permInvert n p q) s fun q' s' => s' = s ∧ q'.size = n ∧
      ∀ k < n, q'[π k]? = some k := by
    refine foldRange_ends (fun i (q' : Array ℕ) s' =>
      s' = s ∧ q'.size = n ∧ ∀ k < i, q'[π k]? = some k) (Nat.zero_le n) ?_
      ⟨rfl, hq, fun k hk => absurd hk (Nat.not_lt_zero k)⟩
    rintro i q' s' - hi ⟨rfl, hsize, hdone⟩
    have hin : π i < q'.size := by rwa [hsize, hlt]
    rw [ends_bind, ends_readArray]
    refine ⟨π i, hp.get_eq i hi, ends_writeArray.mpr ⟨hin, rfl, ?_, ?_⟩⟩
    · rw [Array.size_setIfInBounds, hsize]
    · intro k hk
      rcases Nat.lt_succ_iff_lt_or_eq.mp hk with hlt | rfl
      · rw [Array.getElem?_setIfInBounds_ne (π.injective.ne hlt.ne'), hdone k hlt]
      · rw [Array.getElem?_setIfInBounds_self_of_lt hin]
  apply hloop.mono
  rintro q' s' ⟨hs, hsize, hdone⟩
  refine ⟨hs, hsize, fun i hi => ?_⟩
  rw [hp.getD_eq hi, Array.getD_eq_getD_getElem?, hdone i hi, Option.getD_some]

end Inverse

/-! ## Products and solutions -/

/-- All columns of `Y` are linear combinations of the columns of `A`. -/
def InColumnSpace (A : Table GF256) (n m width : ℕ) (Y : Table GF256) : Prop :=
  ∀ c < width, ∃ x : ℕ → GF256, ∀ i < n, ∑ j ∈ range m, A i j * x j = Y i c

/-- The product of `A` with `X` is `Y`. -/
def IsSolution (A : Table GF256) (n m width : ℕ) (Y X : Table GF256) : Prop :=
  ∀ i < n, ∀ c < width, times A m X i c = Y i c

theorem InColumnSpace.exists_solution {A Y : Table GF256} {n m width : ℕ}
    (h : InColumnSpace A n m width Y) : ∃ X, IsSolution A n m width Y X := by
  choose x hx using h
  refine ⟨fun j c => if hc : c < width then x c hc j else 0, fun i hi c hc => ?_⟩
  rw [← hx c hc i hi, times]
  exact sum_congr rfl fun j _ => by rw [dif_pos hc]

namespace M256v

variable {M : M256v} {h : Heap UInt8} {A : Table GF256}

/-- The determinant of the factors is the one of the matrix, singular or not. -/
theorem luDet_eq_det (hA : M.Holds h A) (hsq : M.nRow = M.nCol) :
    Ends (luDecompInplace M) h fun _ h' => Ends (MvMatrix.luDet M) h' fun d h'' =>
      d = (A.toMatrix M.nRow M.nRow).det.byte ∧ h'' = h' := by
  apply (luDecompInplace_run hA).mono
  rintro out h' ⟨t, hrun, -, -, hmat, -⟩
  rw [← hsq] at hrun
  obtain ⟨q, ht⟩ := hrun.finished
  apply (HeapView.luDet_ends hmat hsq).mono
  rintro d h'' ⟨rfl, rfl⟩
  refine ⟨?_, rfl⟩
  rw [ht.det_eq]
  exact congrArg (fun n => (∏ i ∈ range n, t.mat i i).byte) hsq.symm

/-- A singular matrix whose first column is zero. -/
theorem luDet_eq_det_singular :
    Ends (luDecompInplace (make 2 2 ⟨0, 0⟩)) ⟨#[#[0, 2, 0, 3]]⟩ fun _ h' =>
      Ends (MvMatrix.luDet (make 2 2 ⟨0, 0⟩)) h' fun d h'' => d = 0 ∧ h'' = h' := by
  have hdet : (((rowMajor 2 #[0, 2, 0, 3]).toMatrix 2 2).det).byte = 0 := by
    rw [Matrix.det_fin_two]
    decide
  have hrun := luDet_eq_det (M := make 2 2 ⟨0, 0⟩) (h := ⟨#[#[0, 2, 0, 3]]⟩)
    (holds_make rfl (by decide)) rfl
  rw [← hdet]
  exact hrun

/-- The product through the decomposition is the product with the matrix, both in
a view of its own and in place of the rows of `X`. -/
theorem luMult_eq_times (hA : M.Holds h A) :
    Ends (luDecompInplace M) h fun out h' => ∃ B, M.Holds h' B ∧ AgreeOff M.cells h h' ∧
      ∀ {g}, M.Holds g B →
        (∀ {X Y S T}, X.Holds g S → Y.Holds g T → Disjoint Y.cells M.cells →
          Disjoint Y.cells X.cells → X.nRow = M.nCol → Y.nRow = M.nRow → X.nCol = Y.nCol →
            Ends (MvMatrix.luMult M out.2.1 out.2.2 X Y) g fun _ g' =>
              Y.Holds g' (times A M.nCol S) ∧ AgreeOff Y.cells g g') ∧
        (∀ {X S inv}, X.Holds g S → Disjoint X.cells M.cells → 0 < X.nRow → M.nRow ≤ X.nRow →
          M.nCol ≤ X.nRow → InvertsPerm inv out.2.1 M.nRow →
            Ends (MvMatrix.luMultInplace M (some inv) (some out.2.2) X) g fun _ g' => ∃ T,
              X.Holds g' T ∧ AgreeOff X.cells g g' ∧
                ∀ i < M.nRow, ∀ c < X.nCol, T i c = times A M.nCol S i c) := by
  apply (luDecompInplace_run hA).mono
  rintro out h' ⟨t, hrun, hrows, hcols, hmat, hagree⟩
  obtain ⟨q, ht⟩ := hrun.finished
  refine ⟨t.mat, hmat, hagree, fun hLU => ⟨?_, ?_⟩⟩
  · intro X Y S T hX hY hdisjLU hdisjX hXrow hYrow hcol
    have hρ : HeapView.Placement Y t.rowperm M.nRow :=
      HeapView.placement_perm (fun _ => ht.rowperm_lt) hYrow.ge
    apply (HeapView.luMult_ends hLU hX hY hdisjLU hdisjX hXrow.symm hYrow.symm hcol hρ
      hrows.get_eq (fun k hk => (ht.colperm_lt.mpr hk).trans_eq hXrow.symm) hcols.get_eq).mono
    rintro _ g' ⟨B, hB, hplaced, hagree'⟩
    refine ⟨HeapView.holds_congr hB fun i hi c _ => ?_, hagree'⟩
    obtain ⟨k, hk, rfl⟩ := ht.exists_rowperm (hi.trans_eq hYrow)
    rw [hplaced k hk, ht.times_rowperm S hk]
    rfl
  · intro X S inv hX hdisj hpos hrow hcol hinv
    have hsymm : ∀ k, t.rowperm.symm k < M.nRow ↔ k < M.nRow := fun k => by
      rw [← ht.rowperm_lt, t.rowperm.apply_symm_apply]
    apply (HeapView.luMultInplace_ends hLU hX hdisj hpos hcol hrow hsymm
      (hrows.symm (fun _ => ht.rowperm_lt) hinv).get_eq (fun _ => ht.colperm_lt)
      hcols.get_eq).mono
    rintro _ g' ⟨T, hT, hagree', hprod⟩
    refine ⟨T, hT, hagree', fun i hi c _ => ?_⟩
    obtain ⟨k, hk, rfl⟩ := ht.exists_rowperm hi
    rw [hprod _ hi, t.rowperm.symm_apply_apply, ht.times_rowperm S hk]
    rfl

/-- Solving through the decomposition finds a solution whenever there is one, both
in a view of its own and in place of the right-hand side, and the only one if
the rank is the number of columns. -/
theorem luInvmult_solves (hA : M.Holds h A) :
    Ends (luDecompInplace M) h fun out h' => ∃ B, M.Holds h' B ∧ AgreeOff M.cells h h' ∧
      (∀ {g}, M.Holds g B →
        (∀ {X Y S T}, Y.Holds g S → X.Holds g T → Disjoint X.cells M.cells →
          Disjoint X.cells Y.cells → X.nRow = M.nCol → Y.nRow = M.nRow → X.nCol = Y.nCol →
          InColumnSpace A M.nRow M.nCol X.nCol S →
            Ends (MvMatrix.luInvmult M out.1 out.2.1 out.2.2 Y X) g fun _ g' => ∃ C,
              X.Holds g' C ∧ AgreeOff X.cells g g' ∧
                IsSolution A M.nRow M.nCol X.nCol S C) ∧
        (∀ {X S inv}, X.Holds g S → Disjoint X.cells M.cells → 0 < X.nRow → M.nRow ≤ X.nRow →
          M.nCol ≤ X.nRow → InvertsPerm inv out.2.2 M.nCol →
          InColumnSpace A M.nRow M.nCol X.nCol S →
            Ends (luInvmultInplace M out.1 (some out.2.1) (some inv) X) g fun _ g' => ∃ C,
              X.Holds g' C ∧ AgreeOff X.cells g g' ∧
                IsSolution A M.nRow M.nCol X.nCol S C)) ∧
      (out.1 = M.nCol → ∀ {width S C C'}, IsSolution A M.nRow M.nCol width S C →
        IsSolution A M.nRow M.nCol width S C' → ∀ j < M.nCol, ∀ c < width, C j c = C' j c) := by
  apply (luDecompInplace_run hA).mono
  rintro out h' ⟨t, hrun, hrows, hcols, hmat, hagree⟩
  obtain ⟨q, ht⟩ := hrun.finished
  have hrank : solveRank M (out.1 : ℤ) = out.1 := by
    rw [solveRank, if_neg (by omega), Int.toNat_natCast]
  refine ⟨t.mat, hmat, hagree, fun hLU => ⟨?_, ?_⟩, ?_⟩
  · intro X Y S T hY hX hdisjLU hdisjY hXrow hYrow hcol hspace
    obtain ⟨C₀, hC₀⟩ := hspace.exists_solution
    have hκ : HeapView.Placement X t.colperm M.nCol :=
      HeapView.placement_perm (fun _ => ht.colperm_lt) hXrow.ge
    have hrankr : solveRank M out.1 ≤ M.nRow := hrank.symm ▸ ht.rank_le_rows
    apply (HeapView.luInvmult_ends hLU hY hX hdisjLU hdisjY hXrow.symm hYrow.symm hcol
      hrankr (hrank.symm ▸ ht.rank_le_cols)
      (fun k hk => (ht.rowperm_lt.mpr (hk.trans_le hrankr)).trans_eq hYrow.symm)
      (fun k hk => hrows.get_eq k (hk.trans_le hrankr)) hκ hcols.get_eq
      (hrank.symm ▸ ht.diag)).mono
    rintro _ g' ⟨Z, W, hZ, hW, -, hXW, hagree'⟩
    rw [hrank] at hZ hW
    refine ⟨W, hXW, hagree', fun i hi c hc => ?_⟩
    exact ht.times_solution (fun k hk => hC₀ k hk c hc) (fun k hk => hZ k hk c)
      (fun k hk => hW k hk c) (fun j _ => rfl) hi
  · intro X S inv hX hdisj hpos hrow hcol hinv hspace
    obtain ⟨C₀, hC₀⟩ := hspace.exists_solution
    have hsymm : ∀ k, t.colperm.symm k < M.nCol ↔ k < M.nCol := fun k => by
      rw [← ht.colperm_lt, t.colperm.apply_symm_apply]
    have hrp : HeapView.ListsOpt (some out.2.1) M.nRow t.rowperm :=
      ⟨fun _ => ht.rowperm_lt, hrows.get_eq⟩
    have hcp : HeapView.ListsOpt (some inv) M.nCol t.colperm.symm :=
      ⟨hsymm, (hcols.symm (fun _ => ht.colperm_lt) hinv).get_eq⟩
    apply (HeapView.luInvmultInplace_ends hLU hX hdisj hpos hrow hcol
      (hrank.symm ▸ ht.rank_le_rows) (hrank.symm ▸ ht.rank_le_cols) hrp hcp
      (hrank.symm ▸ ht.diag)).mono
    rintro _ g' ⟨Z, W, hZ, hW, hXW, hagree'⟩
    rw [hrank] at hZ hW
    refine ⟨_, hXW, hagree', fun i hi c hc => ?_⟩
    refine ht.times_solution (W := W) (fun k hk => hC₀ k hk c hc) (fun k hk => ?_)
      (fun k hk => hW.solve k (Nat.zero_le k) hk c) (fun j hj => ?_) hi
    · exact (hZ.solve k hk c).trans (if_pos (hk.trans_le ht.rank_le_rows))
    · exact (if_pos (ht.colperm_lt.mpr hj)).trans
        (congrArg (fun k => W k c) (t.colperm.symm_apply_apply j))
  · intro hfull width S C C' hC hC' j hj c hc
    rw [hfull] at ht
    exact ht.solution_unique (fun i hi => (hC i hi c hc).trans (hC' i hi c hc).symm) j hj

/-- What is computed with the decomposition can use the inverse permutations. -/
theorem luDecompInplace_inverts (hA : M.Holds h A) :
    Ends (luDecompInplace M) h fun out _ =>
      (∀ {q} (g : Heap UInt8), q.size = M.nRow → Ends (permInvert M.nRow out.2.1 q) g
        fun inv g' => g' = g ∧ InvertsPerm inv out.2.1 M.nRow) ∧
      ∀ {q} (g : Heap UInt8), q.size = M.nCol → Ends (permInvert M.nCol out.2.2 q) g
        fun inv g' => g' = g ∧ InvertsPerm inv out.2.2 M.nCol := by
  apply (luDecompInplace_run hA).mono
  rintro out h' ⟨t, hrun, hrows, hcols, -⟩
  obtain ⟨q, ht⟩ := hrun.finished
  exact ⟨fun _ hq => permInvert_ends hrows (fun _ => ht.rowperm_lt) hq,
    fun _ hq => permInvert_ends hcols (fun _ => ht.colperm_lt) hq⟩

/-! ## An example -/

/-- A wide matrix of rank one, whose pivot is neither in the first row nor in the
first column, a view of three rows, and one of two. -/
def wideHeap : Heap UInt8 := ⟨#[#[0, 0, 0, 0, 7, 9], #[0, 7, 3], #[0, 7]]⟩

def wideTable : Table GF256 := rowMajor 3 #[0, 0, 0, 0, 7, 9]

theorem holds_wide : (make 2 3 ⟨0, 0⟩).Holds wideHeap wideTable := holds_make rfl (by decide)

theorem holds_three : (make 3 1 ⟨1, 0⟩).Holds wideHeap (rowMajor 1 #[0, 7, 3]) :=
  holds_make rfl (by decide)

theorem holds_two : (make 2 1 ⟨2, 0⟩).Holds wideHeap (rowMajor 1 #[0, 7]) :=
  holds_make rfl (by decide)

/-- The product of the wide matrix with three numbers. -/
theorem luMult_eq_times_wide :
    Ends (luDecompInplace (make 2 3 ⟨0, 0⟩)) wideHeap fun out g =>
      Ends (MvMatrix.luMult (make 2 3 ⟨0, 0⟩) out.2.1 out.2.2 (make 3 1 ⟨1, 0⟩)
        (make 2 1 ⟨2, 0⟩)) g (fun _ g' => (make 2 1 ⟨2, 0⟩).Holds g'
          (times wideTable 3 (rowMajor 1 #[0, 7, 3]))) ∧
      Ends (permInvert 2 out.2.1 #[0, 0]) g fun inv g' =>
        Ends (MvMatrix.luMultInplace (make 2 3 ⟨0, 0⟩) (some inv) (some out.2.2)
          (make 3 1 ⟨1, 0⟩)) g' fun _ g'' => ∃ T, (make 3 1 ⟨1, 0⟩).Holds g'' T ∧
            ∀ i < 2, ∀ c < 1, T i c = times wideTable 3 (rowMajor 1 #[0, 7, 3]) i c := by
  obtain ⟨out, g, hrun, hinverts, -⟩ := luDecompInplace_inverts holds_wide
  obtain ⟨B, hB, hagree, hprod⟩ := (luMult_eq_times holds_wide).of_run hrun
  have hX := holds_three.agreeOff hagree (disjoint_cells_of_blk (show 0 ≠ 1 by decide))
  have hY := holds_two.agreeOff hagree (disjoint_cells_of_blk (show 0 ≠ 2 by decide))
  obtain ⟨hmult, hinplace⟩ := hprod hB
  rw [ends_of_run hrun]
  constructor
  case left =>
    apply (hmult hX hY (disjoint_cells_of_blk (show 2 ≠ 0 by decide))
      (disjoint_cells_of_blk (show 2 ≠ 1 by decide)) rfl rfl rfl).mono
    rintro _ g' ⟨hholds, -⟩
    exact hholds
  case right =>
    apply (hinverts g rfl).mono
    rintro inv g' ⟨rfl, hinv⟩
    apply (hinplace hX (disjoint_cells_of_blk (show 1 ≠ 0 by decide)) (show 0 < 3 by decide)
      (show 2 ≤ 3 by decide) (show 3 ≤ 3 by decide) hinv).mono
    rintro _ g'' ⟨T, hT, -, hprod⟩
    exact ⟨T, hT, hprod⟩

/-- The solution of a system with the wide matrix, whose right-hand side is its
second column. -/
theorem luInvmult_solves_wide :
    Ends (luDecompInplace (make 2 3 ⟨0, 0⟩)) wideHeap fun out g =>
      Ends (MvMatrix.luInvmult (make 2 3 ⟨0, 0⟩) out.1 out.2.1 out.2.2 (make 2 1 ⟨2, 0⟩)
        (make 3 1 ⟨1, 0⟩)) g (fun _ g' => ∃ C, (make 3 1 ⟨1, 0⟩).Holds g' C ∧
          IsSolution wideTable 2 3 1 (rowMajor 1 #[0, 7]) C) ∧
      Ends (permInvert 3 out.2.2 #[0, 0, 0]) g fun inv g' =>
        Ends (luInvmultInplace (make 2 3 ⟨0, 0⟩) out.1 (some out.2.1) (some inv)
          (make 3 1 ⟨1, 0⟩)) g' fun _ g'' => ∃ C, (make 3 1 ⟨1, 0⟩).Holds g'' C ∧
            IsSolution wideTable 2 3 1 (rowMajor 1 #[0, 7, 3]) C := by
  have hspace : ∀ {S : Table GF256}, S 0 0 = ⟨0⟩ → S 1 0 = ⟨7⟩ →
      InColumnSpace wideTable 2 3 1 S := by
    intro S h0 h1 c hc
    refine ⟨fun j => if j = 1 then 1 else 0, fun i hi => ?_⟩
    obtain rfl : c = 0 := by omega
    have hcolumn : ∑ j ∈ range 3, wideTable i j * (if j = 1 then 1 else 0) = wideTable i 1 := by
      simp
    refine hcolumn.trans ?_
    rcases Nat.lt_succ_iff_lt_or_eq.mp hi with hlt | rfl
    · obtain rfl : i = 0 := by omega
      exact h0.symm
    · exact h1.symm
  obtain ⟨out, g, hrun, -, hinverts⟩ := luDecompInplace_inverts holds_wide
  obtain ⟨B, hB, hagree, hsolve, -⟩ := (luInvmult_solves holds_wide).of_run hrun
  have hX := holds_three.agreeOff hagree (disjoint_cells_of_blk (show 0 ≠ 1 by decide))
  have hY := holds_two.agreeOff hagree (disjoint_cells_of_blk (show 0 ≠ 2 by decide))
  obtain ⟨hinvmult, hinplace⟩ := hsolve hB
  rw [ends_of_run hrun]
  constructor
  case left =>
    apply (hinvmult hY hX (disjoint_cells_of_blk (show 1 ≠ 0 by decide))
      (disjoint_cells_of_blk (show 1 ≠ 2 by decide)) rfl rfl rfl (hspace rfl rfl)).mono
    rintro _ g' ⟨C, hC, -, hsol⟩
    exact ⟨C, hC, hsol⟩
  case right =>
    apply (hinverts g rfl).mono
    rintro inv g' ⟨rfl, hinv⟩
    apply (hinplace hX (disjoint_cells_of_blk (show 1 ≠ 0 by decide)) (show 0 < 3 by decide)
      (show 2 ≤ 3 by decide) (show 3 ≤ 3 by decide) hinv (hspace rfl rfl)).mono
    rintro _ g'' ⟨C, hC, -, hsol⟩
    exact ⟨C, hC, hsol⟩

end M256v

end TvRQ
