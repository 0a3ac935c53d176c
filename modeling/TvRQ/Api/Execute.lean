/-
# Solving for the intermediate block

`RqInterExecute` moves the symbols it is given into the intermediate block, in
the order of the pivot rows, and solves in place.  Only the pivot rows take part
in this.  The result is the only block that can satisfy all equations, and it
does satisfy them when there are no rows besides the pivot rows.
-/

import TvRQ.Algebra.M256vView
import TvRQ.Algebra.MvSolve
import TvRQ.Api.Compile

namespace TvRQ

open Imperative Heap Elimination Finset

/-- The right-hand side: `n` symbols, and zeros for the rows behind them. -/
def rhs (n : ℕ) (Y : Table GF256) : Table GF256 := fun r c => if r < n then Y r c else 0

/-- The block satisfies the equations of the IDs with the given symbols. -/
def Solves (P : Parameters) (ids : List UInt32) (nSymSize : ℕ) (Y X : Table GF256) : Prop :=
  ∀ r < constraintRows P ids, ∀ c < nSymSize,
    ∑ j ∈ range P.L, constraintMatrix P ids r j * X j c = rhs ids.length Y r c

/-- No block but `C` can satisfy the equations, and a square system is satisfied by it. -/
structure Determines (P : Parameters) (ids : List UInt32) (nSymSize : ℕ) (Y C : Table GF256) :
    Prop where
  unique : ∀ X, Solves P ids nSymSize Y X → ∀ j < P.L, ∀ c < nSymSize, X j c = C j c
  solves : constraintRows P ids = P.L → Solves P ids nSymSize Y C

variable {P : Parameters} {ids : List UInt32} {mem inSymMem interSymMem : Ptr}
  {t : State GF256} {prog : RqInterProgram} {nSymSize size : ℕ} {h : Heap UInt8}
  {Y B C : Table GF256}

/-- `C` is the one block that satisfies the equations of the first `L` rows that
the permutation lists. -/
def PivotSolution (P : Parameters) (ids : List UInt32) (ρ : ℕ → ℕ) (nSymSize : ℕ)
    (Y C : Table GF256) : Prop :=
  ∀ c < nSymSize, ∀ x : ℕ → GF256,
    (∀ i < P.L, ∑ j ∈ range P.L, constraintMatrix P ids (ρ i) j * x j = rhs ids.length Y (ρ i) c) ↔
      ∀ j < P.L, x j = C j c

/-- What the two substitutions compute from the pivot rows. -/
theorem pivotSolution_of_solved (hrun : Run (constraintRows P ids) P.L 0
      (State.init (constraintMatrix P ids)) P.L t) {X Z C : Table GF256}
    (hX : ∀ i < P.L, ∀ c < nSymSize, X i c = rhs ids.length Y (t.rowperm i) c)
    (hZ : ForwardSolved t.mat P.L id X Z) (hC : BackSolved t.mat 0 P.L P.L id Z C) :
    PivotSolution P ids t.rowperm nSymSize Y C := by
  obtain ⟨q, hfinished⟩ := hrun.finished
  intro c hc x
  apply hfinished.solution_iff
  · intro i hi
    rw [← hX i hi c hc]
    exact hZ.solve i hi c
  · intro i hi
    exact hC.solve i (Nat.zero_le i) hi c

/-- Two solutions are the same block. -/
theorem PivotSolution.unique {ρ : ℕ → ℕ} {C' : Table GF256}
    (hC : PivotSolution P ids ρ nSymSize Y C) (hC' : PivotSolution P ids ρ nSymSize Y C') :
    ∀ j < P.L, ∀ c < nSymSize, C j c = C' j c := fun j hj c hc =>
  (hC' c hc fun i => C i c).mp ((hC c hc fun i => C i c).mpr fun _ _ => rfl) j hj

theorem PivotSolution.determines (hrun : Run (constraintRows P ids) P.L 0
      (State.init (constraintMatrix P ids)) P.L t)
    (hC : PivotSolution P ids t.rowperm nSymSize Y C) : Determines P ids nSymSize Y C := by
  obtain ⟨q, hfinished⟩ := hrun.finished
  constructor
  · intro W hW j hj c hc
    refine (hC c hc fun j => W j c).mp (fun i hi => ?_) j hj
    have hrow : t.rowperm i < constraintRows P ids :=
      hfinished.rowperm_lt.mpr (hi.trans_le hfinished.rank_le_rows)
    exact hW _ hrow c hc
  · intro hsquare r hr c hc
    -- Every row is a pivot row.
    have hi : t.rowperm.symm r < P.L := by
      rw [← hsquare, ← hfinished.rowperm_lt, Equiv.apply_symm_apply]
      exact hr
    have hpivot := (hC c hc fun j => C j c).mpr (fun _ _ => rfl) _ hi
    rwa [Equiv.apply_symm_apply] at hpivot

/-- Moving the symbols to the pivot rows.  Only symbols of pivot rows are read. -/
theorem moveRows_ends {IB Ys : M256v} (hprog : CompiledTo P ids mem P.L t prog h)
    (hIB : IB.Holds h B)
    (hY : ∀ i < P.L, t.rowperm i < ids.length → Ys.HoldsRow h Y (t.rowperm i))
    (hdisj : Disjoint IB.cells Ys.cells)
    (hcol : Ys.nCol = IB.nCol) (hrow : IB.nRow = P.L) (hYrow : Ys.nRow = ids.length) :
    Ends (forRange 0 P.L fun i => do
      let l ← readArray prog.rowperm i
      if prog.nESI ≤ l then
        IB.clearRow i
      else
        Ys.copyRow l IB i) h fun _ h' =>
      IB.Holds h' (fun i c => if i < P.L then rhs ids.length Y (t.rowperm i) c else B i c) ∧
        AgreeOff IB.cells h h' := by
  obtain ⟨q, hfinished⟩ := hprog.run.finished
  let S : ℕ → Table GF256 := fun k i c =>
    if i < k then rhs ids.length Y (t.rowperm i) c else B i c
  refine forRange_ends (fun k h' => IB.Holds h' (S k) ∧ AgreeOff IB.cells h h') (Nat.zero_le _)
    (fun k h₁ _ hk hI => ?_) ⟨hIB.congr fun i _ c _ => by simp [S], AgreeOff.refl _ h⟩
  obtain ⟨hS, hagree⟩ := hI
  have hkrow : k < IB.nRow := hrow ▸ hk
  have hstep : ∀ {A : Table GF256}, (∀ c, A k c = rhs ids.length Y (t.rowperm k) c) →
      (∀ i, i ≠ k → ∀ c, A i c = S k i c) → ∀ i c, A i c = S (k + 1) i c := by
    intro A hself hother i c
    by_cases hi : i = k
    · subst hi
      rw [hself c]
      exact (if_pos (Nat.lt_succ_self i)).symm
    · have hiff : i < k + 1 ↔ i < k := by omega
      rw [hother i hi c]
      simp only [S, hiff]
  rw [ends_bind, ends_readArray]
  refine ⟨_, hprog.rowperm.get_eq k (hk.trans_le hfinished.rank_le_rows), ?_⟩
  rw [hprog.nESI_eq]
  split_ifs with hpad
  · have hge : ¬ t.rowperm k < ids.length := by omega
    refine (M256v.clearRow_ends hS hkrow).mono fun _ h₂ hpost =>
      ⟨hpost.1.congr fun i _ c _ => hstep (fun c => ?_) (fun i hi c => ?_) i c,
        hagree.trans (hpost.2.mono (M256v.rowCells_subset hkrow))⟩
    · simp [Table.clearRow, rhs, hge]
    · simp [Table.clearRow, hi]
  · have hlt : t.rowperm k < ids.length := by omega
    have hlt' : t.rowperm k < Ys.nRow := hYrow ▸ hlt
    refine (M256v.copyRow_ends hS hcol hlt' hkrow (((hY k hk hlt).agreeOff hlt' hagree
      hdisj).source_of_disjoint hcol hlt' hkrow hdisj)).mono fun _ h₂ hpost =>
        ⟨hpost.1.congr fun i _ c _ => hstep (fun c => ?_) (fun i hi c => ?_) i c,
          hagree.trans (hpost.2.mono (M256v.rowCells_subset hkrow))⟩
    · simp [Table.copyRow, rhs, hlt]
    · simp [Table.copyRow, hi]

/-- The execution of a program that was compiled with full rank. -/
theorem rqInterExecute_pivots (hP : P.Valid) (hprog : CompiledTo P ids mem P.L t prog h)
    (hsymSize : nSymSize < 2 ^ 31) (hsize : P.L * nSymSize ≤ size)
    (hIB : (M256v.make P.L nSymSize interSymMem).Holds h B)
    (hY : ∀ i < P.L, t.rowperm i < ids.length →
      (M256v.make ids.length nSymSize inSymMem).HoldsRow h Y (t.rowperm i))
    (hdisjY : Disjoint (M256v.make P.L nSymSize interSymMem).cells
      (M256v.make ids.length nSymSize inSymMem).cells)
    (hdisjLU : Disjoint (M256v.make P.L nSymSize interSymMem).cells (luView P ids mem).cells)
    (inSize : ℕ) :
    Ends (rqInterExecute prog nSymSize inSymMem inSize interSymMem size) h fun ret h' =>
      ret = 0 ∧ ∃ C, PivotSolution P ids t.rowperm nSymSize Y C ∧
        (M256v.make P.L nSymSize interSymMem).Holds h' C ∧
          AgreeOff (M256v.make P.L nSymSize interSymMem).cells h h' := by
  obtain ⟨q, hfinished⟩ := hprog.run.finished
  have hint : intOfSize nSymSize = .ok nSymSize := if_pos hsymSize
  have hLU : prog.LU = { luView P ids mem with nRow := P.L } := by
    rw [hprog.LU_eq, if_neg (lt_irrefl _)]
  have hL : 0 < P.L := by have := hP.L_eq; have := hP.S_pos; omega
  have hsub : prog.LU.cells ⊆ (luView P ids mem).cells := by
    rw [hLU]
    rintro p ⟨r, hr, c, hc, rfl⟩
    exact ⟨r, lt_of_lt_of_le hr hfinished.rank_le_rows, c, hc, rfl⟩
  have hdisj := hdisjLU.mono_right hsub
  have hholds : prog.LU.Holds h t.mat := by
    rw [hLU]
    exact fun r hr c hc => hprog.holds r (lt_of_lt_of_le hr hfinished.rank_le_rows) c hc
  have hrows : prog.LU.nRow = P.L := by rw [hLU]
  have hcols : prog.LU.nCol = P.L := by rw [hLU]; rfl
  have hmin : min (MvGen.nCol prog.LU) (MvGen.nRow prog.LU) = P.L :=
    (congrArg₂ min hcols hrows).trans (min_self _)
  unfold rqInterExecute
  rw [hcols, if_neg (not_lt.mpr hsize), ends_bind, ends_embed]
  refine ⟨_, hint, ?_⟩
  rw [hrows, hprog.nESI_eq, Int.toNat_natCast, ← hprog.nESI_eq]
  refine (moveRows_ends hprog hIB hY hdisjY rfl rfl rfl).bind fun _ h₁ h₁p => ?_
  obtain ⟨hX, hagree⟩ := h₁p
  refine (HeapView.luInvmultInplace_ends_none (hholds.agreeOff hagree hdisj) hX hdisj hL hrows.le
    hcols.le fun i hi => hfinished.diag i (hi.trans_eq hmin)).bind fun _ h₂ h₂p => ?_
  obtain ⟨Z, C, hZ, hC, hholdsC, hagreeC⟩ := h₂p
  rw [hmin] at hZ hC
  rw [show MvGen.nCol prog.LU = P.L from hcols] at hC
  exact ends_pure.mpr ⟨rfl, C, pivotSolution_of_solved hprog.run (fun i hi c _ => if_pos hi) hZ hC,
    hholdsC, hagree.trans hagreeC⟩

end TvRQ
