/-
# What programs compute

The constraint matrix is a function of the parameters and the IDs, so is the
program that is compiled from them, and the block that the program computes is
the only one that satisfies the equations of the pivot rows.  Nothing of what
was in memory before comes into it.
-/

import TvRQ.Api.RoundTrip

namespace TvRQ

open Imperative Heap Elimination Finset

/-! ## Compiled programs -/

/-- A call of the compiler that has returned 0, the program, and the heap with
the factors. -/
structure CompileRun (P : Parameters) (ids : List UInt32) (w : RqWorkMem) (mem : Ptr) (size : ℕ)
    (h : Heap UInt8) (prog : RqInterProgram) (h' : Heap UInt8) : Prop where
  input : CompileInput P ids w mem size h
  run_eq : rqInterCompile w mem size h = .ok ((0, some prog), h')

/-- The buffers of a call of `RqInterExecute`, some time after the program was
compiled into `mem`.  The intermediate block lies apart from the other buffers. -/
structure ExecuteInput (P : Parameters) (ids : List UInt32) (mem : Ptr) (h' : Heap UInt8)
    (nSymSize : ℕ) (inMem interMem : Ptr) (interSize : ℕ) (Y : Table GF256) (g : Heap UInt8) :
    Prop where
  program : ∀ p ∈ (luView P ids mem).cells, g.load p = h'.load p
  symSize_pos : 1 ≤ nSymSize
  symSize_lt : nSymSize < 2 ^ 31
  size_ge : P.L * nSymSize ≤ interSize
  symbols : (M256v.make ids.length nSymSize inMem).Holds g Y
  block : ∃ B, (M256v.make P.L nSymSize interMem).Holds g B
  apart_symbols : Disjoint (M256v.make P.L nSymSize interMem).cells
    (M256v.make ids.length nSymSize inMem).cells
  apart_program : Disjoint (M256v.make P.L nSymSize interMem).cells (luView P ids mem).cells

section Programs

variable {P : Parameters} {ids : List UInt32} {w : RqWorkMem} {mem inMem interMem : Ptr}
  {size nSymSize interSize : ℕ} {h h' g : Heap UInt8} {prog : RqInterProgram} {Y : Table GF256}

theorem CompileRun.compiledTo (hP : P.Valid) (hrun : CompileRun P ids w mem size h prog h') :
    ∃ t, CompiledTo P ids mem P.L t prog h' ∧ AgreeOff (luView P ids mem).cells h h' := by
  obtain ⟨r, t, prog', hout, hprog, hagree⟩ :=
    (rqInterCompile_ends hP hrun.input).of_run hrun.run_eq
  obtain ⟨hret, hsome⟩ := Prod.mk.injEq .. ▸ hout
  obtain rfl := Option.some.inj hsome
  obtain ⟨q, hfinished⟩ := hprog.run.finished
  have hfull : ¬ r < P.L := fun hlt => by
    rw [if_pos hlt] at hret
    cases hret
  obtain rfl : r = P.L := Nat.le_antisymm hfinished.rank_le_cols (not_lt.mp hfull)
  exact ⟨t, hprog, hagree⟩

/-- The IDs compile exactly when there is such a call. -/
theorem exists_compileRun (hP : P.Valid) (hin : CompileInput P ids w mem size h)
    (hfull : FullRank P ids) : ∃ prog h', CompileRun P ids w mem size h prog h' := by
  obtain ⟨⟨ret, out⟩, h', hrun, hret⟩ := (rqInterCompile_ret_zero hP hin).mpr hfull
  obtain ⟨r, t, prog, hout, -⟩ := (rqInterCompile_ends hP hin).of_run hrun
  obtain rfl : ret = 0 := hret
  obtain rfl : out = some prog := congrArg Prod.snd hout
  exact ⟨prog, h', hin, hrun⟩

/-- A program is still there as long as its memory is left alone. -/
theorem CompiledTo.of_load {r : ℕ} {t : State GF256} (hprog : CompiledTo P ids mem r t prog h')
    (hload : ∀ p ∈ (luView P ids mem).cells, g.load p = h'.load p) :
    CompiledTo P ids mem r t prog g where
  run := hprog.run
  nESI_eq := hprog.nESI_eq
  rowperm := hprog.rowperm
  LU_eq := hprog.LU_eq
  holds := fun r hr c hc => by
    rw [hload _ ⟨r, hr, c, hc, rfl⟩]
    exact hprog.holds r hr c hc

/-- The run of a compiled program. -/
theorem ExecuteInput.ends (hP : P.Valid) {t : State GF256}
    (hprog : CompiledTo P ids mem P.L t prog h')
    (hin : ExecuteInput P ids mem h' nSymSize inMem interMem interSize Y g) (inSize : ℕ) :
    Ends (rqInterExecute prog nSymSize inMem inSize interMem interSize) g fun ret g' =>
      ret = 0 ∧ ∃ C, PivotSolution P ids t.rowperm nSymSize Y C ∧
        (M256v.make P.L nSymSize interMem).Holds g' C := by
  obtain ⟨B, hB⟩ := hin.block
  apply (rqInterExecute_pivots hP (hprog.of_load hin.program) hin.symSize_lt hin.size_ge hB
    (fun _ _ hlt => hin.symbols.row hlt) hin.apart_symbols hin.apart_program inSize).mono
  rintro ret g' ⟨hret, C, hC, hholds, -⟩
  exact ⟨hret, C, hC, hholds⟩

end Programs

/-! ## The equations of the pivot rows -/

/-- The block satisfies the equation of row `r` of the constraint matrix. -/
def SolvesRow (P : Parameters) (ids : List UInt32) (nSymSize : ℕ) (Y X : Table GF256) (r : ℕ) :
    Prop :=
  ∀ c < nSymSize, ∑ j ∈ range P.L, constraintMatrix P ids r j * X j c =
    if r < ids.length then Y r c else 0

theorem pivotSolution_iff {P : Parameters} {ids : List UInt32} {ρ : ℕ → ℕ} {nSymSize : ℕ}
    {Y C X : Table GF256} (hC : PivotSolution P ids ρ nSymSize Y C) :
    (∀ i < P.L, SolvesRow P ids nSymSize Y X (ρ i)) ↔
      ∀ j < P.L, ∀ c < nSymSize, X j c = C j c := by
  constructor
  · intro hX j hj c hc
    exact (hC c hc fun j => X j c).mp (fun i hi => hX i hi c hc) j hj
  · intro hX i hi c hc
    exact (hC c hc fun j => X j c).mpr (fun j hj => hX j hj c hc) i hi

/-- For every list of IDs that compiles, every symbol size and all symbols, which
need not be those of any block, the block that is computed satisfies the
equations of the rows that the program lists first, and no other block does. -/
theorem rqInterExecute_unique_solution {K : ℤ} {P : Parameters} {ids : List UInt32}
    {w : RqWorkMem} {mem inMem interMem : Ptr} {size nSymSize interSize : ℕ} {h h' g : Heap UInt8}
    {prog : RqInterProgram} {Y : Table GF256} (hget : parametersGet K = .ok P) (hK : P.K ≠ -1)
    (hrun : CompileRun P ids w mem size h prog h')
    (hin : ExecuteInput P ids mem h' nSymSize inMem interMem interSize Y g) (inSize : ℕ) :
    prog.rowperm.size = constraintRows P ids ∧
      Ends (rqInterExecute prog nSymSize inMem inSize interMem interSize) g fun ret g' =>
        ret = 0 ∧ ∃ C, (M256v.make P.L nSymSize interMem).Holds g' C ∧
          (∀ i < P.L, SolvesRow P ids nSymSize Y C (prog.rowperm.getD i 0)) ∧
            ∀ X, (∀ i < P.L, SolvesRow P ids nSymSize Y X (prog.rowperm.getD i 0)) →
              ∀ j < P.L, ∀ c < nSymSize, X j c = C j c := by
  have hP := parametersGet_valid hget hK
  obtain ⟨t, hprog, -⟩ := hrun.compiledTo hP
  refine ⟨hprog.rowperm.size_eq, ?_⟩
  apply (hin.ends hP hprog inSize).mono
  rintro ret g' ⟨hret, C, hC, hholds⟩
  refine ⟨hret, C, hholds, fun i hi => ?_, fun X hX => ?_⟩
  · rw [hprog.getD_rowperm hi]
    exact (pivotSolution_iff hC).mpr (fun _ _ _ _ => rfl) i hi
  · apply (pivotSolution_iff hC).mp
    intro i hi
    rw [← hprog.getD_rowperm hi]
    exact hX i hi

/-- Program memory, symbols of one byte, and an intermediate block for ten
symbols.  What is to be written to contains the given byte. -/
def junkHeap (junk : UInt8) (progSize : ℕ) (bytes : Array UInt8) : Heap UInt8 :=
  ⟨#[Array.replicate progSize junk, bytes, Array.replicate 27 junk]⟩

theorem junkHeap_compileInput {ids : List UInt32} {progSize : ℕ} (junk : UInt8)
    (bytes : Array UInt8) (hrows : constraintRows params10 ids < 2 ^ 31)
    (hsize : interMemNeeded (idsMem ids) ≤ progSize) :
    CompileInput params10 ids (idsMem ids) ⟨0, 0⟩ progSize (junkHeap junk progSize bytes) where
  params_eq := rfl
  nESI_eq := rfl
  ids_eq := storesIds_toArray ids
  rows_lt := hrows
  size_ge := hsize
  room := by simp [junkHeap, blockSize]

/-- The buffers right after compiling. -/
theorem junkHeap_executeInput {ids : List UInt32} {junk : UInt8} {progSize : ℕ}
    {bytes : Array UInt8} {prog : RqInterProgram} {h' : Heap UInt8}
    (hbytes : bytes.size = ids.length)
    (hrun : CompileRun params10 ids (idsMem ids) ⟨0, 0⟩ progSize (junkHeap junk progSize bytes)
      prog h') :
    ExecuteInput params10 ids ⟨0, 0⟩ h' 1 ⟨1, 0⟩ ⟨2, 0⟩ 27 (M256v.rowMajor 1 bytes) h' := by
  have hP := parametersGet_valid parametersGet_ten (by decide)
  obtain ⟨t, -, hagree⟩ := hrun.compiledTo hP
  have hkeep : ∀ {V : M256v} {A : Table GF256}, V.Holds (junkHeap junk progSize bytes) A →
      0 ≠ V.e.blk → V.Holds h' A := fun hA hblk =>
    hA.agreeOff hagree (M256v.disjoint_cells_of_blk hblk)
  exact {
    program := fun _ _ => rfl
    symSize_pos := le_rfl
    symSize_lt := by decide
    size_ge := le_rfl
    symbols := hkeep (M256v.holds_make rfl (by rw [hbytes, Nat.mul_one])) (by decide : 0 ≠ 1)
    block := ⟨_, hkeep (M256v.holds_make rfl (show 27 * 1 ≤ 27 by decide)) (by decide : 0 ≠ 2)⟩
    apart_symbols := M256v.disjoint_cells_of_blk (show 2 ≠ 1 by decide)
    apart_program := M256v.disjoint_cells_of_blk (show 2 ≠ 0 by decide) }

/-- Twelve bytes that need not be symbols of any block. -/
theorem rqInterExecute_unique_solution_ten : ∃ prog h',
    CompileRun params10 receivedIds (idsMem receivedIds) ⟨0, 0⟩ 939
      (junkHeap 0 939 #[1, 2, 3, 4, 5, 6, 7, 8, 9, 10, 11, 12]) prog h' ∧
    Ends (rqInterExecute prog 1 ⟨1, 0⟩ 12 ⟨2, 0⟩ 27) h' fun ret g' => ret = 0 ∧
      ∃ C, (M256v.make 27 1 ⟨2, 0⟩).Holds g' C ∧
        ∀ i < 27, SolvesRow params10 receivedIds 1
          (M256v.rowMajor 1 #[1, 2, 3, 4, 5, 6, 7, 8, 9, 10, 11, 12]) C
            (prog.rowperm.getD i 0) := by
  have hP := parametersGet_valid parametersGet_ten (by decide)
  have hin : CompileInput params10 receivedIds (idsMem receivedIds) ⟨0, 0⟩ 939
      (junkHeap 0 939 #[1, 2, 3, 4, 5, 6, 7, 8, 9, 10, 11, 12]) :=
    junkHeap_compileInput 0 _ (by decide) (by decide +kernel)
  obtain ⟨prog, h', hrun⟩ := exists_compileRun hP hin fullRank_receivedIds
  refine ⟨prog, h', hrun, ?_⟩
  apply (rqInterExecute_unique_solution parametersGet_ten (by decide) hrun
    (junkHeap_executeInput rfl hrun) 12).2.mono
  rintro ret g' ⟨hret, C, hC, hsolves, -⟩
  exact ⟨hret, C, hC, hsolves⟩

/-! ## Old contents of memory -/

/-- The rows of the constraint matrix, from the first to the last. -/
structure ConstraintRows (P : Parameters) (ids : List UInt32) (A : Table GF256) : Prop where
  id_row : ∀ i < ids.length, ∀ c < P.L, A i c = isiRow P (ids.getD i 0 +
    if UInt32.ofInt P.K ≤ ids.getD i 0 then UInt32.ofInt (P.Kprime - P.K) else 0) c
  padding_row : ∀ k < P.nPad, ∀ c < P.L,
    A (ids.length + k) c = isiRow P (UInt32.ofInt (P.K + k)) c
  ldpc_row : ∀ s < P.S, ∀ c < P.L, A (ids.length + P.nPad + s) c = ldpcTable P s c
  hdpc_row : ∀ i < P.H, ∀ c < P.Kprime + P.S,
    A (ids.length + P.nPad + P.S + i) c = gHdpcTable P i c
  identity : ∀ i < P.H, ∀ j < P.H,
    A (ids.length + P.nPad + P.S + i) (P.Kprime + P.S + j) = if i = j then 1 else 0

theorem constraintRows_constraintMatrix {P : Parameters} (hP : P.Valid) (ids : List UInt32) :
    ConstraintRows P ids (constraintMatrix P ids) := by
  have hhdpc : ∀ i c, constraintMatrix P ids (ids.length + P.nPad + P.S + i) c =
      hdpcTable P i c := fun i c => by
    rw [constraintMatrix, if_neg (by omega), if_neg (by omega), Nat.add_sub_cancel_left]
  constructor
  case id_row =>
    intro i hi c _
    rw [constraintMatrix_id P hi, esiToISI, ofInt_pad hP]
  case padding_row =>
    intro k hk c _
    rw [constraintMatrix, if_pos (by omega), rowISI, if_neg (by omega), Nat.add_sub_cancel_left]
  case ldpc_row =>
    intro s hs c _
    rw [constraintMatrix, if_neg (by omega), if_pos (by omega), Nat.add_sub_cancel_left]
  case hdpc_row =>
    intro i _ c hc
    rw [hhdpc, hdpcTable, if_pos hc]
  case identity =>
    intro i _ j _
    rw [hhdpc, hdpcTable, if_neg (by omega)]
    exact if_congr (by omega) rfl rfl

/-- The programs in two heaps are the same, apart from where they lie. -/
structure SameInterProgram (prog₁ : RqInterProgram) (h₁ : Heap UInt8) (prog₂ : RqInterProgram)
    (h₂ : Heap UInt8) : Prop where
  nESI_eq : prog₁.nESI = prog₂.nESI
  rowperm_eq : prog₁.rowperm = prog₂.rowperm
  nRow_eq : prog₁.LU.nRow = prog₂.LU.nRow
  nCol_eq : prog₁.LU.nCol = prog₂.LU.nCol
  rstride_eq : prog₁.LU.rstride = prog₂.LU.rstride
  entries_eq : ∃ A, prog₁.LU.Holds h₁ A ∧ prog₂.LU.Holds h₂ A

theorem CompiledTo.same {P : Parameters} {ids : List UInt32} {mem₁ mem₂ : Ptr} {r : ℕ}
    {t : State GF256} {prog₁ prog₂ : RqInterProgram} {h₁ h₂ : Heap UInt8}
    (hprog₁ : CompiledTo P ids mem₁ r t prog₁ h₁) (hprog₂ : CompiledTo P ids mem₂ r t prog₂ h₂) :
    SameInterProgram prog₁ h₁ prog₂ h₂ := by
  obtain ⟨q, hfinished⟩ := hprog₁.run.finished
  have hrows : (if r < P.L then constraintRows P ids else r) ≤ constraintRows P ids := by
    split_ifs
    · exact le_rfl
    · exact hfinished.rank_le_rows
  have hentries : ∀ {mem : Ptr} {prog : RqInterProgram} {h : Heap UInt8},
      CompiledTo P ids mem r t prog h → prog.LU.Holds h t.mat := fun hprog => by
    rw [hprog.LU_eq]
    exact fun i hi c hc => hprog.holds i (lt_of_lt_of_le hi hrows) c hc
  exact {
    nESI_eq := hprog₁.nESI_eq.trans hprog₂.nESI_eq.symm
    rowperm_eq := hprog₁.rowperm.unique hprog₂.rowperm
    nRow_eq := by rw [hprog₁.LU_eq, hprog₂.LU_eq]
    nCol_eq := by rw [hprog₁.LU_eq, hprog₂.LU_eq]; rfl
    rstride_eq := by rw [hprog₁.LU_eq, hprog₂.LU_eq]; rfl
    entries_eq := ⟨t.mat, hentries hprog₁, hentries hprog₂⟩ }

/-- The pointer to the factors is that of their view. -/
theorem luStorage_eq {w : RqWorkMem} {mem : Ptr} {size : ℕ} {h : Heap UInt8}
    {out : ℤ × Option RqInterProgram} {h' : Heap UInt8} {prog : RqInterProgram}
    (hrun : rqInterCompile w mem size h = .ok (out, h')) (hprog : out.2 = some prog) :
    prog.luStorage = prog.LU.e := by
  have hends : Ends (rqInterCompile w mem size) h fun out _ => out.2 = some prog :=
    ⟨out, h', hrun, hprog⟩
  unfold rqInterCompile at hends
  split_ifs at hends
  · cases ends_pure.mp hends
  · rw [ends_bind] at hends
    obtain ⟨_, h₁, -, hends⟩ := hends
    rw [ends_bind] at hends
    obtain ⟨⟨rank, rowperm, colperm⟩, h₂, -, hends⟩ := hends
    dsimp only at hends
    split_ifs at hends
    · cases ends_pure.mp hends
      rfl
    · rw [ends_bind] at hends
      obtain ⟨_, h₃, -, hends⟩ := hends
      rw [ends_bind, ends_ensure] at hends
      cases ends_pure.mp hends.2
      rfl

/-- The buffers of a call of `RqOutExecute` for a program with the given IDs. -/
structure OutInput (P : Parameters) (ids : List UInt32) (prog : RqOutProgram) (nSymSize : ℕ)
    (interMem outMem : Ptr) (outSize : ℕ) (C : Table GF256) (g : Heap UInt8) : Prop where
  params_eq : prog.params = P
  nESI_eq : prog.nESI = ids.length
  ids_eq : StoresIds prog.ESIs ids.length ids
  symSize_lt : nSymSize < 2 ^ 31
  size_ge : ids.length * nSymSize ≤ outSize
  inter : (M256v.make P.L nSymSize interMem).Holds g C
  block : ∃ B, (M256v.make ids.length nSymSize outMem).Holds g B
  apart : Disjoint (M256v.make ids.length nSymSize outMem).cells
    (M256v.make P.L nSymSize interMem).cells

/-- For every supported number of symbols and every list of IDs,
`rq_matrix_generate` writes all cells of the matrix, whatever they contain, with
the rows of `ConstraintRows`.  Two runs of the compiler on the same IDs leave
the same program, and two runs of a program on the same symbols leave the same
symbols, whatever is in the memory that they write to. -/
theorem contents_irrelevant {K : ℤ} {P : Parameters} (hget : parametersGet K = .ok P)
    (hK : P.K ≠ -1) (ids : List UInt32) :
    (∀ {M : M256v} {h A ESIs}, StoresIds ESIs ids.length ids → M.Holds h A →
      M.nRow = ids.length + (P.Kprime - P.K).toNat + P.S + P.H → M.nCol = P.L →
        Ends (rqMatrixGenerate M P ids.length ESIs) h fun _ h' =>
          ∃ R, ConstraintRows P ids R ∧ M.Holds h' R ∧ AgreeOff M.cells h h') ∧
    (∀ {w mem₁ mem₂ size₁ size₂ h₁ h₂}, CompileInput P ids w mem₁ size₁ h₁ →
      CompileInput P ids w mem₂ size₂ h₂ →
        Ends (rqInterCompile w mem₁ size₁) h₁ fun out₁ g₁ =>
          Ends (rqInterCompile w mem₂ size₂) h₂ fun out₂ g₂ => out₁.1 = out₂.1 ∧
            ∃ prog₁ prog₂, out₁.2 = some prog₁ ∧ out₂.2 = some prog₂ ∧
              SameInterProgram prog₁ g₁ prog₂ g₂ ∧ (mem₁ = mem₂ → prog₁ = prog₂)) ∧
    (∀ {w mem₁ mem₂ size₁ size₂ h₁ h₂ prog₁ prog₂ h₁' h₂' nSymSize inMem₁ inMem₂ interMem₁ interMem₂
        interSize₁ interSize₂ Y g₁ g₂},
      CompileRun P ids w mem₁ size₁ h₁ prog₁ h₁' → CompileRun P ids w mem₂ size₂ h₂ prog₂ h₂' →
      ExecuteInput P ids mem₁ h₁' nSymSize inMem₁ interMem₁ interSize₁ Y g₁ →
      ExecuteInput P ids mem₂ h₂' nSymSize inMem₂ interMem₂ interSize₂ Y g₂ →
        ∀ inSize₁ inSize₂,
          Ends (rqInterExecute prog₁ nSymSize inMem₁ inSize₁ interMem₁ interSize₁) g₁ fun ret₁ k₁ =>
            Ends (rqInterExecute prog₂ nSymSize inMem₂ inSize₂ interMem₂ interSize₂) g₂
              fun ret₂ k₂ => ret₁ = ret₂ ∧ ∃ C,
                (M256v.make P.L nSymSize interMem₁).Holds k₁ C ∧
                  (M256v.make P.L nSymSize interMem₂).Holds k₂ C) ∧
    (∀ {prog nSymSize interMem₁ interMem₂ outMem₁ outMem₂ outSize₁ outSize₂ C g₁ g₂},
      OutInput P ids prog nSymSize interMem₁ outMem₁ outSize₁ C g₁ →
      OutInput P ids prog nSymSize interMem₂ outMem₂ outSize₂ C g₂ →
        Ends (rqOutExecute prog nSymSize interMem₁ outMem₁ outSize₁) g₁ fun ret₁ k₁ =>
          Ends (rqOutExecute prog nSymSize interMem₂ outMem₂ outSize₂) g₂ fun ret₂ k₂ =>
            ret₁ = ret₂ ∧ ∃ O, (M256v.make ids.length nSymSize outMem₁).Holds k₁ O ∧
              (M256v.make ids.length nSymSize outMem₂).Holds k₂ O) := by
  have hP := parametersGet_valid hget hK
  refine ⟨?_, ?_, ?_, ?_⟩
  · intro M h A ESIs hids hA hrow hcol
    apply (rqMatrixGenerate_ends hP hids hA hrow hcol).mono
    rintro _ h' ⟨hR, hagree⟩
    exact ⟨_, constraintRows_constraintMatrix hP ids, hR, hagree⟩
  · intro w mem₁ mem₂ size₁ size₂ h₁ h₂ hin₁ hin₂
    obtain ⟨_, g₁, hrun₁, r, t, prog₁, rfl, hprog₁, -⟩ := rqInterCompile_ends hP hin₁
    obtain ⟨_, g₂, hrun₂, r', t', prog₂, rfl, hprog₂, -⟩ := rqInterCompile_ends hP hin₂
    obtain ⟨rfl, rfl⟩ := hprog₁.run.unique hprog₂.run
    have hsame := hprog₁.same hprog₂
    rw [ends_of_run hrun₁, ends_of_run hrun₂]
    refine ⟨rfl, prog₁, prog₂, rfl, rfl, hsame, fun hmem => ?_⟩
    have hLU : prog₁.LU = prog₂.LU := by rw [hprog₁.LU_eq, hprog₂.LU_eq, hmem]
    have hstorage : prog₁.luStorage = prog₂.luStorage := by
      rw [luStorage_eq hrun₁ rfl, luStorage_eq hrun₂ rfl, hLU]
    calc
      prog₁ = ⟨prog₁.LU, prog₁.luStorage, prog₁.nESI, prog₁.rowperm⟩ := rfl
      _ = prog₂ := by rw [hLU, hstorage, hsame.nESI_eq, hsame.rowperm_eq]
  · intro w mem₁ mem₂ size₁ size₂ h₁ h₂ prog₁ prog₂ h₁' h₂' nSymSize inMem₁ inMem₂ interMem₁
      interMem₂ interSize₁ interSize₂ Y g₁ g₂ hrun₁ hrun₂ hin₁ hin₂ inSize₁ inSize₂
    obtain ⟨t, hprog₁, -⟩ := hrun₁.compiledTo hP
    obtain ⟨t', hprog₂, -⟩ := hrun₂.compiledTo hP
    obtain ⟨-, rfl⟩ := hprog₁.run.unique hprog₂.run
    apply (hin₁.ends hP hprog₁ inSize₁).mono
    rintro _ k₁ ⟨rfl, C, hC, hholds₁⟩
    apply (hin₂.ends hP hprog₂ inSize₂).mono
    rintro _ k₂ ⟨rfl, C', hC', hholds₂⟩
    exact ⟨rfl, C, hholds₁, hholds₂.congr fun j hj c hc => hC'.unique hC j hj c hc⟩
  · intro prog nSymSize interMem₁ interMem₂ outMem₁ outMem₂ outSize₁ outSize₂ C g₁ g₂ hin₁ hin₂
    obtain ⟨B₁, hB₁⟩ := hin₁.block
    obtain ⟨B₂, hB₂⟩ := hin₂.block
    apply (rqOutExecute_ends hP hin₁.params_eq hin₁.nESI_eq hin₁.ids_eq hin₁.symSize_lt
      hin₁.size_ge hin₁.inter hB₁ hin₁.apart).mono
    rintro _ k₁ ⟨rfl, hholds₁, -⟩
    apply (rqOutExecute_ends hP hin₂.params_eq hin₂.nESI_eq hin₂.ids_eq hin₂.symSize_lt
      hin₂.size_ge hin₂.inter hB₂ hin₂.apart).mono
    rintro _ k₂ ⟨rfl, hholds₂, -⟩
    exact ⟨rfl, _, hholds₁, hholds₂⟩

/-- Ten symbols, over memory of zeros and over memory of ones. -/
theorem contents_irrelevant_ten :
    (Ends (rqMatrixGenerate (.make 27 27 ⟨0, 0⟩) params10 10 sourceIds.toArray)
      ⟨#[Array.replicate 729 255]⟩ fun _ h' => ∃ R, ConstraintRows params10 sourceIds R ∧
        (M256v.make 27 27 ⟨0, 0⟩).Holds h' R) ∧
    (∃ prog h₁ h₂,
      CompileRun params10 sourceIds (idsMem sourceIds) ⟨0, 0⟩ 877
        (junkHeap 0 877 #[1, 2, 3, 4, 5, 6, 7, 8, 9, 10]) prog h₁ ∧
      CompileRun params10 sourceIds (idsMem sourceIds) ⟨0, 0⟩ 877
        (junkHeap 255 877 #[1, 2, 3, 4, 5, 6, 7, 8, 9, 10]) prog h₂ ∧
      Ends (rqInterExecute prog 1 ⟨1, 0⟩ 10 ⟨2, 0⟩ 27) h₁ fun _ k₁ =>
        Ends (rqInterExecute prog 1 ⟨1, 0⟩ 10 ⟨2, 0⟩ 27) h₂ fun _ k₂ => ∃ C,
          (M256v.make 27 1 ⟨2, 0⟩).Holds k₁ C ∧ (M256v.make 27 1 ⟨2, 0⟩).Holds k₂ C) ∧
    Ends (rqOutExecute ⟨params10, 0, 10, sourceIds.toArray⟩ 1 ⟨0, 0⟩ ⟨1, 0⟩ 10)
      ⟨#[Array.replicate 27 7, Array.replicate 10 0]⟩ fun _ k₁ =>
        Ends (rqOutExecute ⟨params10, 0, 10, sourceIds.toArray⟩ 1 ⟨0, 0⟩ ⟨1, 0⟩ 10)
          ⟨#[Array.replicate 27 7, Array.replicate 10 255]⟩ fun _ k₂ => ∃ O,
            (M256v.make 10 1 ⟨1, 0⟩).Holds k₁ O ∧ (M256v.make 10 1 ⟨1, 0⟩).Holds k₂ O := by
  have hP := parametersGet_valid parametersGet_ten (by decide)
  obtain ⟨hmatrix, hcompile, hexecute, hout⟩ :=
    contents_irrelevant parametersGet_ten (by decide) sourceIds
  refine ⟨?_, ?_, ?_⟩
  · apply (hmatrix (storesIds_toArray sourceIds) (M := .make 27 27 ⟨0, 0⟩)
      (M256v.holds_make rfl (by simp)) rfl rfl).mono
    rintro _ h' ⟨R, hR, hholds, -⟩
    exact ⟨R, hR, hholds⟩
  · have hin : ∀ junk, CompileInput params10 sourceIds (idsMem sourceIds) ⟨0, 0⟩ 877
        (junkHeap junk 877 #[1, 2, 3, 4, 5, 6, 7, 8, 9, 10]) := fun junk =>
      junkHeap_compileInput junk _ (by decide) (by decide +kernel)
    obtain ⟨prog₁, h₁, hrun₁⟩ := exists_compileRun hP (hin 0) fullRank_sourceIds
    obtain ⟨prog₂, h₂, hrun₂⟩ := exists_compileRun hP (hin 255) fullRank_sourceIds
    have hsame := ((hcompile (hin 0) (hin 255)).of_run hrun₁.run_eq).of_run hrun₂.run_eq
    obtain ⟨-, p₁, p₂, hp₁, hp₂, -, heq⟩ := hsame
    cases hp₁
    cases hp₂
    obtain rfl := heq rfl
    refine ⟨prog₁, h₁, h₂, hrun₁, hrun₂, ?_⟩
    apply (hexecute hrun₁ hrun₂ (junkHeap_executeInput rfl hrun₁)
      (junkHeap_executeInput rfl hrun₂) 10 10).mono
    rintro _ k₁ hends
    apply hends.mono
    rintro _ k₂ ⟨-, C, hC₁, hC₂⟩
    exact ⟨C, hC₁, hC₂⟩
  · have hin : ∀ junk, OutInput params10 sourceIds ⟨params10, 0, 10, sourceIds.toArray⟩ 1 ⟨0, 0⟩
        ⟨1, 0⟩ 10 (M256v.rowMajor 1 (Array.replicate 27 7))
          ⟨#[Array.replicate 27 7, Array.replicate 10 junk]⟩ := fun junk =>
      { params_eq := rfl
        nESI_eq := rfl
        ids_eq := storesIds_toArray sourceIds
        symSize_lt := by decide
        size_ge := le_rfl
        inter := M256v.holds_make rfl (by decide)
        block := ⟨_, M256v.holds_make rfl (show 10 * 1 ≤ 10 by decide)⟩
        apart := M256v.disjoint_cells_of_blk (show 1 ≠ 0 by decide) }
    apply (hout (hin 0) (hin 255)).mono
    rintro _ k₁ hends
    apply hends.mono
    rintro _ k₂ ⟨-, O, hO₁, hO₂⟩
    exact ⟨O, hO₁, hO₂⟩

end TvRQ
