/-
# Staying inside the buffers

The caller says how large the buffers are.  A program that is run on blocks of
just these sizes faults if it uses a byte behind the end of one of them, so
what is shown here is when the two functions that execute a program end.

`RqInterExecute` tests the size of the intermediate block.  The test of the size
of the symbols is switched off: the function ends exactly when the symbols that
it reads, those of pivot rows, are there.  `RqOutExecute` makes the test that it
needs and always ends.
-/

import TvRQ.Algebra.M256vView
import TvRQ.Api.Solution

namespace TvRQ

open Imperative Heap Elimination

/-- The `n` bytes from `p` on. -/
def bytesFrom (p : Ptr) (n : ℕ) : Set Ptr := {q | ∃ k < n, q = p.add k}

/-- The function ends with an error before it has written anything, or it ends
with 0 and has written to the `n` bytes at `p` only. -/
def StaysInside (p : Ptr) (n : ℕ) (g : Heap UInt8) (ret : ℤ) (g' : Heap UInt8) : Prop :=
  (ret = rqErrEnomem ∧ g' = g) ∨ (ret = 0 ∧ AgreeOff (bytesFrom p n) g g')

/-- The program of the IDs and blocks that end where the caller says they do. -/
structure InterBuffers (P : Parameters) (ids : List UInt32) (mem : Ptr) (h' : Heap UInt8)
    (nSymSize : ℕ) (inMem : Ptr) (inSize : ℕ) (interMem : Ptr) (interSize : ℕ)
    (g : Heap UInt8) : Prop where
  program : ∀ p ∈ (luView P ids mem).cells, g.load p = h'.load p
  symSize_pos : 1 ≤ nSymSize
  symSize_lt : nSymSize < 2 ^ 31
  in_end : g.blockSize inMem.blk = inMem.off + inSize
  inter_end : g.blockSize interMem.blk = interMem.off + interSize
  inter_ne_in : interMem.blk ≠ inMem.blk
  inter_ne_program : interMem.blk ≠ mem.blk

/-- An output program for IDs and blocks that end where they have to. -/
structure OutBuffers (P : Parameters) (ids : List UInt32) (prog : RqOutProgram) (nSymSize : ℕ)
    (interMem outMem : Ptr) (outSize : ℕ) (g : Heap UInt8) : Prop where
  params_eq : prog.params = P
  nESI_eq : prog.nESI = ids.length
  ids_eq : StoresIds prog.ESIs ids.length ids
  symSize_lt : nSymSize < 2 ^ 31
  inter_end : g.blockSize interMem.blk = interMem.off + P.L * nSymSize
  out_end : g.blockSize outMem.blk = outMem.off + outSize
  out_ne_inter : outMem.blk ≠ interMem.blk

section Buffers

variable {P : Parameters} {ids : List UInt32} {w : RqWorkMem} {mem inMem interMem outMem : Ptr}
  {size nSymSize inSize interSize outSize : ℕ} {h h' g : Heap UInt8} {prog : RqInterProgram}
  {outProg : RqOutProgram} {t : State GF256}

theorem cells_make_subset {n m : ℕ} {p : Ptr} {size : ℕ} (hsize : n * m ≤ size) :
    (M256v.make n m p).cells ⊆ bytesFrom p size := by
  rintro q ⟨r, hr, c, hc, rfl⟩
  have hr' : r < n := hr
  have hc' : c < m := hc
  have hrow : (r + 1) * m ≤ n * m := Nat.mul_le_mul_right m hr'
  rw [Nat.add_mul] at hrow
  exact ⟨r * m + c, by omega, rfl⟩

/-- A run that ends has read every symbol of a pivot row. -/
theorem rqInterExecute_reads (hprog : CompiledTo P ids mem P.L t prog g)
    (hpos : 1 ≤ nSymSize) (hsymSize : nSymSize < 2 ^ 31) (hsize : P.L * nSymSize ≤ interSize)
    (hin_end : g.blockSize inMem.blk = inMem.off + inSize) {Q : ℤ → Heap UInt8 → Prop}
    (hends : Ends (rqInterExecute prog nSymSize inMem inSize interMem interSize) g Q) :
    ∀ i < P.L, t.rowperm i < ids.length → (t.rowperm i + 1) * nSymSize ≤ inSize := by
  obtain ⟨q, hfinished⟩ := hprog.run.finished
  have hint : intOfSize nSymSize = .ok nSymSize := if_pos hsymSize
  have hcols : prog.LU.nCol = P.L := by rw [hprog.LU_eq]; rfl
  have hrows : prog.LU.nRow = P.L := by rw [hprog.LU_eq, if_neg (lt_irrefl _)]
  intro i hi hlt
  unfold rqInterExecute at hends
  rw [hcols, if_neg (not_lt.mpr hsize), ends_bind, ends_embed, hint] at hends
  obtain ⟨_, hok, hends⟩ := hends
  cases hok
  rw [ends_bind, hrows] at hends
  obtain ⟨g', hshape, hbody⟩ := forRange_reaches (P := fun g' => g'.shape = g.shape) hends rfl
    (fun _ _ _ => Keeps.bind (Keeps.readArray _ _) fun _ =>
      Keeps.ite (M256v.keepsShape_clearRow _ _ _) (M256v.keepsShape_copyRow _ _ _ _ _))
    (Nat.zero_le i) hi
  rw [ends_bind, ends_readArray, hprog.rowperm.get_eq i (hi.trans_le hfinished.rank_le_rows)]
    at hbody
  obtain ⟨_, hl, hbody⟩ := hbody
  obtain rfl := Option.some.inj hl
  rw [hprog.nESI_eq, if_neg (by omega)] at hbody
  -- The last byte of the symbol is in the block.
  have hread := M256v.copyRow_reads hbody (c := nSymSize - 1)
    (show nSymSize - 1 < nSymSize by omega)
  rw [blockSize_eq, hshape, ← blockSize_eq] at hread
  have hread' : inMem.off + (t.rowperm i * nSymSize + (nSymSize - 1)) < inMem.off + inSize :=
    hread.trans_eq hin_end
  rw [Nat.add_mul]
  omega

/-- The run of a program on the blocks that it was given. -/
theorem InterBuffers.ends_iff (hP : P.Valid) (hprog : CompiledTo P ids mem P.L t prog h')
    (hin : InterBuffers P ids mem h' nSymSize inMem inSize interMem interSize g) :
    Ends (rqInterExecute prog nSymSize inMem inSize interMem interSize) g
        (StaysInside interMem interSize g) ↔
      interSize < P.L * nSymSize ∨
        ∀ i < P.L, t.rowperm i < ids.length → (t.rowperm i + 1) * nSymSize ≤ inSize := by
  have hprog' := hprog.of_load hin.program
  have hcols : prog.LU.nCol = P.L := by rw [hprog.LU_eq]; rfl
  constructor
  · intro hends
    by_cases hlt : interSize < P.L * nSymSize
    · exact Or.inl hlt
    · exact Or.inr (rqInterExecute_reads hprog' hin.symSize_pos hin.symSize_lt (not_lt.mp hlt)
        hin.in_end hends)
  · intro hcond
    by_cases hlt : interSize < P.L * nSymSize
    · unfold rqInterExecute
      rw [hcols, if_pos hlt]
      exact ends_pure.mpr (Or.inl ⟨rfl, rfl⟩)
    · have hroom : interMem.off + P.L * nSymSize ≤ g.blockSize interMem.blk := by
        rw [hin.inter_end]
        omega
      have hrows : ∀ i < P.L, t.rowperm i < ids.length →
          inMem.off + (t.rowperm i + 1) * nSymSize ≤ g.blockSize inMem.blk := fun i hi hid => by
        rw [hin.in_end]
        exact Nat.add_le_add_left (hcond.resolve_left hlt i hi hid) _
      obtain ⟨B, hB⟩ := M256v.exists_holds_make hroom
      apply (rqInterExecute_pivots hP hprog' hin.symSize_lt (not_lt.mp hlt) hB
        (fun i hi hid => M256v.holdsRow_make (hrows i hi hid))
        (M256v.disjoint_cells_of_blk hin.inter_ne_in)
        (M256v.disjoint_cells_of_blk hin.inter_ne_program) inSize).mono
      rintro ret g' ⟨hret, -, -, -, hagree⟩
      exact Or.inr ⟨hret, hagree.mono (cells_make_subset (not_lt.mp hlt))⟩

theorem OutBuffers.ends (hP : P.Valid)
    (hout : OutBuffers P ids outProg nSymSize interMem outMem outSize g) :
    Ends (rqOutExecute outProg nSymSize interMem outMem outSize) g
      (StaysInside outMem outSize g) := by
  by_cases hlt : outSize < ids.length * nSymSize
  · unfold rqOutExecute
    rw [hout.nESI_eq, Int.toNat_natCast, if_pos hlt]
    exact ends_pure.mpr (Or.inl ⟨rfl, rfl⟩)
  · have hroom : outMem.off + ids.length * nSymSize ≤ g.blockSize outMem.blk := by
      rw [hout.out_end]
      omega
    obtain ⟨C, hC⟩ := M256v.exists_holds_make hout.inter_end.ge
    obtain ⟨B, hB⟩ := M256v.exists_holds_make hroom
    apply (rqOutExecute_ends hP hout.params_eq hout.nESI_eq hout.ids_eq hout.symSize_lt
      (not_lt.mp hlt) hC hB (M256v.disjoint_cells_of_blk hout.out_ne_inter)).mono
    rintro ret g' ⟨hret, -, hagree⟩
    exact Or.inr ⟨hret, hagree.mono (cells_make_subset (not_lt.mp hlt))⟩

end Buffers

/-- For every program that was compiled and all sizes, the two functions stay
inside the buffers, or refuse them before anything is written, exactly when the
intermediate block is refused or the symbols that the program reads are in
their buffer. -/
theorem execute_staysInside_iff {K : ℤ} {P : Parameters} {ids outIds : List UInt32} {w : RqWorkMem}
    {mem inMem interMem outInterMem outMem : Ptr}
    {size nSymSize inSize interSize outSymSize outSize : ℕ} {h h' g outHeap : Heap UInt8}
    {prog : RqInterProgram} {outProg : RqOutProgram} (hget : parametersGet K = .ok P)
    (hK : P.K ≠ -1) (hrun : CompileRun P ids w mem size h prog h')
    (hin : InterBuffers P ids mem h' nSymSize inMem inSize interMem interSize g)
    (hout : OutBuffers P outIds outProg outSymSize outInterMem outMem outSize outHeap) :
    (Ends (rqInterExecute prog nSymSize inMem inSize interMem interSize) g
        (StaysInside interMem interSize g) ∧
      Ends (rqOutExecute outProg outSymSize outInterMem outMem outSize) outHeap
        (StaysInside outMem outSize outHeap)) ↔
      interSize < P.L * nSymSize ∨ ∀ i < P.L, (prog.rowperm.getD i 0 : ℤ) < prog.nESI →
        (prog.rowperm.getD i 0 + 1) * nSymSize ≤ inSize := by
  have hP := parametersGet_valid hget hK
  obtain ⟨t, hprog, -⟩ := hrun.compiledTo hP
  rw [and_iff_left (hout.ends hP), hin.ends_iff hP hprog, hprog.nESI_eq]
  apply or_congr_right
  apply forall₂_congr
  intro i hi
  rw [hprog.getD_rowperm hi, Nat.cast_lt]

/-- Ten symbols of one byte in a block of their own, right after compiling. -/
theorem junkHeap_interBuffers {bytes : Array UInt8} {prog : RqInterProgram} {h' : Heap UInt8}
    (hrun : CompileRun params10 sourceIds (idsMem sourceIds) ⟨0, 0⟩ 877 (junkHeap 0 877 bytes)
      prog h') :
    InterBuffers params10 sourceIds ⟨0, 0⟩ h' 1 ⟨1, 0⟩ bytes.size ⟨2, 0⟩ 27 h' := by
  have hP := parametersGet_valid parametersGet_ten (by decide)
  obtain ⟨t, -, hagree⟩ := hrun.compiledTo hP
  have hkeep : ∀ b, b ≠ 0 → h'.blockSize b = (junkHeap 0 877 bytes).blockSize b := fun b hb =>
    blockSize_eq_of_load fun off => hagree _ fun ⟨r, _, c, _, heq⟩ => hb (congrArg Ptr.blk heq)
  exact {
    program := fun _ _ => rfl
    symSize_pos := le_rfl
    symSize_lt := by decide
    in_end := by rw [hkeep 1 (by decide)]; simp [junkHeap, blockSize]
    inter_end := by rw [hkeep 2 (by decide)]; simp [junkHeap, blockSize]
    inter_ne_in := show 2 ≠ 1 by decide
    inter_ne_program := show 2 ≠ 0 by decide }

/-- All ten symbols are there. -/
theorem execute_staysInside_iff_ten : ∃ prog h',
    CompileRun params10 sourceIds (idsMem sourceIds) ⟨0, 0⟩ 877
      (junkHeap 0 877 (Array.replicate 10 1)) prog h' ∧
    Ends (rqInterExecute prog 1 ⟨1, 0⟩ 10 ⟨2, 0⟩ 27) h' (StaysInside ⟨2, 0⟩ 27 h') ∧
    Ends (rqOutExecute ⟨params10, 0, 10, sourceIds.toArray⟩ 1 ⟨0, 0⟩ ⟨1, 0⟩ 9)
      ⟨#[Array.replicate 27 7, Array.replicate 9 0]⟩
      (StaysInside ⟨1, 0⟩ 9 ⟨#[Array.replicate 27 7, Array.replicate 9 0]⟩) := by
  have hP := parametersGet_valid parametersGet_ten (by decide)
  have hin : CompileInput params10 sourceIds (idsMem sourceIds) ⟨0, 0⟩ 877
      (junkHeap 0 877 (Array.replicate 10 1)) :=
    junkHeap_compileInput 0 _ (by decide) (by decide +kernel)
  obtain ⟨prog, h', hrun⟩ := exists_compileRun hP hin fullRank_sourceIds
  have hout : OutBuffers params10 sourceIds ⟨params10, 0, 10, sourceIds.toArray⟩ 1 ⟨0, 0⟩ ⟨1, 0⟩ 9
      ⟨#[Array.replicate 27 7, Array.replicate 9 0]⟩ :=
    { params_eq := rfl
      nESI_eq := rfl
      ids_eq := storesIds_toArray sourceIds
      symSize_lt := by decide
      inter_end := by simp [blockSize, params10]
      out_end := by simp [blockSize]
      out_ne_inter := show 1 ≠ 0 by decide }
  have hnESI : prog.nESI = 10 := by
    obtain ⟨t, hprog, -⟩ := hrun.compiledTo hP
    exact hprog.nESI_eq
  refine ⟨prog, h', hrun, (execute_staysInside_iff parametersGet_ten (by decide) hrun
    (junkHeap_interBuffers hrun) hout).mpr (Or.inr fun i _ hlt => ?_)⟩
  rw [hnESI] at hlt
  rw [Array.size_replicate]
  omega

/-- Ten symbols are read from a buffer that is said to be empty. -/
theorem not_staysInside_empty : ∃ prog h',
    CompileRun params10 sourceIds (idsMem sourceIds) ⟨0, 0⟩ 877 (junkHeap 0 877 #[]) prog h' ∧
    InterBuffers params10 sourceIds ⟨0, 0⟩ h' 1 ⟨1, 0⟩ 0 ⟨2, 0⟩ 27 h' ∧
    ¬ Ends (rqInterExecute prog 1 ⟨1, 0⟩ 0 ⟨2, 0⟩ 27) h' (StaysInside ⟨2, 0⟩ 27 h') := by
  have hP := parametersGet_valid parametersGet_ten (by decide)
  have hin : CompileInput params10 sourceIds (idsMem sourceIds) ⟨0, 0⟩ 877 (junkHeap 0 877 #[]) :=
    junkHeap_compileInput 0 _ (by decide) (by decide +kernel)
  obtain ⟨prog, h', hrun⟩ := exists_compileRun hP hin fullRank_sourceIds
  have hbuffers : InterBuffers params10 sourceIds ⟨0, 0⟩ h' 1 ⟨1, 0⟩ 0 ⟨2, 0⟩ 27 h' :=
    junkHeap_interBuffers hrun
  obtain ⟨t, hprog, -⟩ := hrun.compiledTo hP
  obtain ⟨q, hfinished⟩ := hprog.run.finished
  refine ⟨prog, h', hrun, hbuffers, ?_⟩
  rw [hbuffers.ends_iff hP hprog]
  -- Row 0 of the matrix is a pivot row, as all rows are.
  have hi : t.rowperm.symm 0 < 27 := by
    apply hfinished.rowperm_lt.mp
    rw [Equiv.apply_symm_apply]
    decide
  rintro (hlt | hrows)
  · exact absurd hlt (by decide)
  · have hread := hrows _ hi (by rw [Equiv.apply_symm_apply]; decide)
    rw [Equiv.apply_symm_apply] at hread
    exact absurd hread (by decide)

end TvRQ
