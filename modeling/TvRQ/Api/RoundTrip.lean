/-
# The round trip

One pass of the codec compiles the IDs of the symbols that it is given, solves
for the intermediate block, and computes other symbols from it.  Encoding is
the pass from the source symbols, decoding is the pass back.  The second pass
may run at any time and place: all that it has of the first one are the symbols.

A block that satisfies the equations of the source satisfies those of every
other list of IDs with the symbols computed from it, since the rows that are
not rows of IDs are the same for all lists.
-/

import TvRQ.Api.Execute
import TvRQ.Api.Symbols

namespace TvRQ

open Imperative Heap Elimination Finset

/-! ## Passes -/

/-- The buffers of one pass of `test_consistency_for`. -/
structure Pass where
  work : RqWorkMem
  progMem : Ptr
  progSize : ℕ
  outProg : RqOutProgram
  symSize : ℕ
  inMem : Ptr
  inSize : ℕ
  interMem : Ptr
  interSize : ℕ
  outMem : Ptr
  outSize : ℕ

/-- Compile, execute, and compute the output symbols; an error ends the pass. -/
def Pass.run (p : Pass) : Prog (Heap UInt8) ℤ := do
  let (err, prog) ← rqInterCompile p.work p.progMem p.progSize
  match prog with
  | none => pure err
  | some prog =>
      if err ≠ 0 then
        pure err
      else do
        let err ← rqInterExecute prog p.symSize p.inMem p.inSize p.interMem p.interSize
        if err ≠ 0 then
          pure err
        else
          rqOutExecute p.outProg p.symSize p.interMem p.outMem p.outSize

namespace Pass

/-- The result of compiling. -/
def Compiles (p : Pass) (h : Heap UInt8) : Prop :=
  Ends (rqInterCompile p.work p.progMem p.progSize) h fun out _ => out.1 = 0

/-- The `n` symbols that go in. -/
def inView (p : Pass) (n : ℕ) : M256v := .make n p.symSize p.inMem

/-- The intermediate block. -/
def interView (p : Pass) (P : Parameters) : M256v := .make P.L p.symSize p.interMem

/-- The `n` symbols that come out. -/
def outView (p : Pass) (n : ℕ) : M256v := .make n p.symSize p.outMem

/-- The pass leads from the symbols of one list of IDs to those of another one.
All buffers are large enough and lie in blocks of their own. -/
structure Fits (p : Pass) (P : Parameters) (ids outIds : List UInt32) (h : Heap UInt8) :
    Prop where
  compile : CompileInput P ids p.work p.progMem p.progSize h
  params_eq : p.outProg.params = P
  nESI_eq : p.outProg.nESI = outIds.length
  ids_eq : StoresIds p.outProg.ESIs outIds.length outIds
  symSize_pos : 1 ≤ p.symSize
  symSize_lt : p.symSize < 2 ^ 31
  interSize_ge : P.L * p.symSize ≤ p.interSize
  outSize_ge : outIds.length * p.symSize ≤ p.outSize
  inter_room : p.interMem.off + P.L * p.symSize ≤ h.blockSize p.interMem.blk
  out_room : p.outMem.off + outIds.length * p.symSize ≤ h.blockSize p.outMem.blk
  blocks_ne : [p.progMem.blk, p.inMem.blk, p.interMem.blk, p.outMem.blk].Nodup

variable {p : Pass} {P : Parameters} {ids outIds : List UInt32} {h : Heap UInt8} {Y : Table GF256}

/-- A pass whose IDs can be compiled runs to its end.  Its pivots are those of the
elimination of the constraint matrix. -/
theorem run_pivots (hP : P.Valid) (hfits : p.Fits P ids outIds h) (hcompiles : p.Compiles h)
    (hY : (p.inView ids.length).Holds h Y) :
    Ends p.run h fun err h' => err = 0 ∧ ∃ t C,
      Run (constraintRows P ids) P.L 0 (State.init (constraintMatrix P ids)) P.L t ∧
        PivotSolution P ids t.rowperm p.symSize Y C ∧ (p.interView P).Holds h' C ∧
          (p.outView outIds.length).Holds h' (symbolTable P outIds C) := by
  obtain ⟨B, hB⟩ := M256v.exists_holds_make hfits.inter_room
  obtain ⟨O, hO⟩ := M256v.exists_holds_make hfits.out_room
  have hne := hfits.blocks_ne
  simp only [List.nodup_cons, List.mem_cons, List.not_mem_nil, or_false, not_or] at hne
  obtain ⟨⟨hprog_in, hprog_inter, hprog_out⟩, ⟨hin_inter, hin_out⟩, hinter_out, -⟩ := hne
  have hfull := (rqInterCompile_ret_zero hP hfits.compile).mp hcompiles
  unfold Pass.run
  refine (rqInterCompile_ends hP hfits.compile).bind fun out h₁ h₁p => ?_
  obtain ⟨r, t, prog, rfl, hprog, hagree⟩ := h₁p
  obtain ⟨q, hfinished⟩ := hprog.run.finished
  have hr : r = P.L := hfinished.rank_eq.symm.trans hfull
  subst hr
  have hkeep : ∀ {V : M256v} {A : Table GF256}, V.Holds h A → p.progMem.blk ≠ V.e.blk →
      V.Holds h₁ A := fun hA hblk => hA.agreeOff hagree (M256v.disjoint_cells_of_blk hblk)
  dsimp only
  rw [if_neg (lt_irrefl _), if_neg (not_not.mpr rfl)]
  have hY₁ := hkeep hY hprog_in
  refine (rqInterExecute_pivots hP hprog hfits.symSize_lt hfits.interSize_ge (hkeep hB hprog_inter)
    (fun _ _ hlt => hY₁.row hlt) (M256v.disjoint_cells_of_blk (Ne.symm hin_inter))
    (M256v.disjoint_cells_of_blk (Ne.symm hprog_inter)) p.inSize).bind fun err h₂ h₂p => ?_
  obtain ⟨rfl, C, hpivots, hC, hagreeC⟩ := h₂p
  rw [if_neg (not_not.mpr rfl)]
  have hO₂ := (hkeep hO hprog_out).agreeOff hagreeC (M256v.disjoint_cells_of_blk hinter_out)
  have hdisj : Disjoint (p.outView outIds.length).cells (p.interView P).cells :=
    M256v.disjoint_cells_of_blk (Ne.symm hinter_out)
  refine (rqOutExecute_ends hP hfits.params_eq hfits.nESI_eq hfits.ids_eq hfits.symSize_lt
    hfits.outSize_ge hC hO₂ hdisj).mono fun err h₃ h₃p => ?_
  exact ⟨h₃p.1, t, C, hprog.run, hpivots, hC.agreeOff h₃p.2.2 hdisj, h₃p.2.1⟩

/-- The block of a pass is the only one that can satisfy the equations. -/
theorem run_ends (hP : P.Valid) (hfits : p.Fits P ids outIds h) (hcompiles : p.Compiles h)
    (hY : (p.inView ids.length).Holds h Y) :
    Ends p.run h fun err h' => err = 0 ∧ ∃ C, Determines P ids p.symSize Y C ∧
      (p.interView P).Holds h' C ∧ (p.outView outIds.length).Holds h' (symbolTable P outIds C) := by
  apply (run_pivots hP hfits hcompiles hY).mono
  rintro err h' ⟨herr, t, C, hrun, hpivots, hC, hout⟩
  exact ⟨herr, C, hpivots.determines hrun, hC, hout⟩

end Pass

/-! ## There and back -/

variable {P : Parameters} {E F : List UInt32} {nSymSize : ℕ} {C C' D : Table GF256}

/-- A list with as many IDs as there are source symbols makes a square system. -/
theorem constraintRows_eq (hP : P.Valid) (hE : (E.length : ℤ) = P.K) :
    constraintRows P E = P.L := by
  have hK := hP.K_le
  have hL := hP.L_eq
  unfold constraintRows Parameters.nPad
  omega

/-- A block that satisfies the equations of one list satisfies those of another
one, with the symbols that are computed from it. -/
theorem Solves.symbolTable (hC : Solves P E nSymSize D C) (F : List UInt32) :
    Solves P F nSymSize (symbolTable P F C) C := by
  intro r hr c hc
  by_cases hid : r < F.length
  · rw [rhs, if_pos hid]
    rfl
  · obtain ⟨k, rfl⟩ := Nat.exists_eq_add_of_le (not_lt.mp hid)
    have hk : E.length + k < constraintRows P E := by
      unfold constraintRows at hr ⊢
      omega
    have hzero := hC _ hk c hc
    rw [rhs, if_neg (by omega)] at hzero ⊢
    simp only [constraintMatrix_tail P F E]
    exact hzero

/-- The symbols of a block that satisfies the equations are those of the equations. -/
theorem Solves.symbolTable_eq (hC : Solves P E nSymSize D C) {i c : ℕ} (hi : i < E.length)
    (hc : c < nSymSize) : TvRQ.symbolTable P E C i c = D i c := by
  have hrow := hC i (by unfold constraintRows; omega) c hc
  rwa [rhs, if_pos hi] at hrow

/-- Symbols depend on the entries of the block only. -/
theorem symbolTable_congr {i c : ℕ} (hC : ∀ j < P.L, C j c = C' j c) :
    symbolTable P E C i c = symbolTable P E C' i c :=
  sum_congr rfl fun j hj => by rw [hC j (mem_range.mp hj)]

/-- For every supported number of symbols and every symbol size, the block that
is recovered from the symbols of any list of IDs that compiles is the block they
were computed from, and the source symbols come back from it. -/
theorem roundTrip {K : ℤ} (hget : parametersGet K = .ok P) (hK : P.K ≠ -1)
    (hE : (E.length : ℤ) = K) {p : Pass} {h : Heap UInt8} (hp : p.Fits P E F h)
    (hcompiles : p.Compiles h) (hD : (p.inView E.length).Holds h D) :
    Ends p.run h fun err h' => err = 0 ∧ ∃ C Y, (p.interView P).Holds h' C ∧
      (p.outView F.length).Holds h' Y ∧
        ∀ (q : Pass) (g : Heap UInt8), q.symSize = p.symSize → q.Fits P F E g → q.Compiles g →
          (q.inView F.length).Holds g Y → Ends q.run g fun err g' => err = 0 ∧
            (q.interView P).Holds g' C ∧ (q.outView E.length).Holds g' D := by
  have hP := parametersGet_valid hget hK
  have hKeq : P.K = K := (parametersGet_row hget hK).2.1
  refine (Pass.run_ends hP hp hcompiles hD).mono fun err h' hpost => ?_
  obtain ⟨herr, C, hC, hholdsC, hholdsY⟩ := hpost
  have hsolves : Solves P E p.symSize D C :=
    hC.solves (constraintRows_eq hP (hE.trans hKeq.symm))
  refine ⟨herr, C, _, hholdsC, hholdsY, fun q g hsize hq hqcompiles hY => ?_⟩
  refine (Pass.run_ends hP hq hqcompiles hY).mono fun err' g' hpost => ?_
  obtain ⟨herr', C', hC', hholdsC', hholdsD'⟩ := hpost
  have hsame : ∀ j < P.L, ∀ c < p.symSize, C j c = C' j c :=
    hsize ▸ hC'.unique C (hsize ▸ hsolves.symbolTable F)
  refine ⟨herr', hholdsC'.congr fun j hj c hc => ?_, hholdsD'.congr fun i hi c hc => ?_⟩
  · have hc' : c < p.symSize := hsize ▸ hc
    exact (hsame j hj c hc').symm
  · have hc' : c < p.symSize := hsize ▸ hc
    rw [← hsolves.symbolTable_eq hi hc']
    exact (symbolTable_congr fun j hj => hsame j hj c hc').symm

/-! ## Ten symbols -/

/-- The table whose rows are the digits of the numbers. -/
def digitTable (rows : List ℕ) : Table GF256 := fun i j => ⟨digit (rows.getD i 0) j⟩

/-- The inverse of the constraint matrix of the ten source symbols. -/
def sourceInverse : Table GF256 := digitTable [
  0x68bc6234469dfcfa602a65e81f16e88ea02dfa35a907c187f7beb9,
  0x2b1c1c4ac10690f8518510d45c112f6b7df54dba060c2d7cc9b28e,
  0x8eebb16b668b406b666f751b6d01d0f2e15979d29bc41587707a05,
  0x5104c29c733763508d9a7dd395fe091f68731a296fbf3e20c89032,
  0x765faa1ffd4c92b681da5b051774e03e4b87a7650df17b83b55941,
  0xfa19402db34718468753223b7ce152ea960af217e96213f8cfb234,
  0x33de0aedf40dc2035a9304d0e411cf38793474d1250e16bc22c239,
  0x55f377eeb136a8ea3cd7132e9355eb7cf771c09fe264b78464e5d3,
  0x76fbfc46d9c05b2de53c52221fe48f18785e8dc07aae0c7ab3cb36,
  0xe657d35f2016bc91064510f27217387d407482e632c3d40186c4bd,
  0x1ccf3b5b5676905ba7b4bc4db3d57aeeb3676b4b8487983c50f0aa,
  0x453e32be68d0221d5ab67da0f3b8d45acdaf113fa84fe5caae796,
  0xa528cbdfe75a249e684125d988dcf818e2c88ce19fee3a9eb12823,
  0x74f2f146d5cc582de13c562011e1831976538bc572a7067fbec830,
  0xa1df7ead255bef24d90c4b248e761a7b7dca56571235b33a1d5cc2,
  0xad3c5c3d4eaa47a1e02f7501597db21610138c040129ac1cafb449,
  0x1c4e93729351a4d7811632c90ef66a97d67e71f1dba1c7f8497689,
  0x5104c29c733763508d9a7dd294fe081e69731b286ebf3f20c99133,
  0xb943a6dd95a07d5eab1391b23398ecd06376cc0f6d37d45be74afe,
  0xbb95cd23d97b8a53f0b8d5a68451e651131e73826718dc3ae2a850,
  0x60526d584e1196dff5abf384c3c9db5f7a5273471c9e7c5dffd72f,
  0x96a80fe596a7261c4bdbef9a692321d880805b03e6e07083838c90,
  0x2d630c11ca2c6ccec26af4afe89cd17188e28bb3ddf8f01871424a,
  0x2be684c4607a99e24c6ad760506e57b45551c52c2d530625df4672,
  0x6e672436693bc957972389b5a30b78b267e2179805ac6b1b48dd0a,
  0xbd1045f6732d7f7f7eb8f7683ca26195ceac3d1d96b22b074cad69,
  0xfe4aa30655ca1a6752f845e073dadeae3bd1030512e6eda46454a3]

def sourceIds : List UInt32 := [0, 1, 2, 3, 4, 5, 6, 7, 8, 9]

theorem fullRank_sourceIds : FullRank params10 sourceIds := by
  have hinv : ∀ i < 27, ∀ j < 27, ∑ k ∈ range 27,
      (constraintMatrix params10 sourceIds i k).mulDigits (sourceInverse k j) =
        if i = j then 1 else 0 := by decide +kernel
  refine Table.rank_eq_of_inverse (B := sourceInverse) fun i hi j hj => ?_
  simp only [GF256.mul_eq_mulDigits]
  exact hinv i hi j hj

/-- Two other IDs, one of them the largest, and the source IDs from last to first. -/
def receivedIds : List UInt32 := 4294967295 :: 3 :: sourceIds.reverse

theorem fullRank_receivedIds : FullRank params10 receivedIds :=
  fullRank_sourceIds.of_subset fun X hX => by simp [receivedIds, hX]

/-- A pass for symbols of one byte with its buffers in the first blocks. -/
def smallPass (ids outIds : List UInt32) (progSize : ℕ) : Pass where
  work := idsMem ids
  progMem := ⟨0, 0⟩
  progSize := progSize
  outProg := ⟨params10, 0, outIds.length, outIds.toArray⟩
  symSize := 1
  inMem := ⟨1, 0⟩
  inSize := ids.length
  interMem := ⟨2, 0⟩
  interSize := 27
  outMem := ⟨3, 0⟩
  outSize := outIds.length

def smallHeap (progSize : ℕ) (bytes : Array UInt8) (n : ℕ) : Heap UInt8 :=
  ⟨#[Array.replicate progSize 0, bytes, Array.replicate 27 0, Array.replicate n 0]⟩

theorem smallPass_fits (ids outIds : List UInt32) (progSize : ℕ) (bytes : Array UInt8)
    (hrows : constraintRows params10 ids < 2 ^ 31)
    (hsize : interMemNeeded (idsMem ids) ≤ progSize) :
    (smallPass ids outIds progSize).Fits params10 ids outIds
      (smallHeap progSize bytes outIds.length) where
  compile :=
    { params_eq := rfl
      nESI_eq := rfl
      ids_eq := storesIds_toArray ids
      rows_lt := hrows
      size_ge := hsize
      room := by simp [smallPass, smallHeap, blockSize] }
  params_eq := rfl
  nESI_eq := rfl
  ids_eq := storesIds_toArray outIds
  symSize_pos := le_rfl
  symSize_lt := show 1 < 2 ^ 31 by decide
  interSize_ge := le_rfl
  outSize_ge := by simp [smallPass]
  inter_room := le_rfl
  out_room := by simp [smallPass, smallHeap, blockSize]
  blocks_ne := show [0, 1, 2, 3].Nodup by decide

/-- Symbols of one byte that are stored one after the other. -/
theorem holds_smallHeap (progSize n m : ℕ) (Y : Table GF256) :
    (M256v.make n 1 ⟨1, 0⟩).Holds
      (smallHeap progSize (Array.ofFn fun i : Fin n => (Y i 0).byte) m) Y := by
  refine (M256v.holds_make rfl (by simp [smallHeap])).congr fun i hi c hc => ?_
  have hi' : i < n := hi
  have hc' : c < 1 := hc
  obtain rfl : c = 0 := by omega
  simp [M256v.rowMajor, smallHeap, hi']

/-- Ten bytes, sent as twelve symbols and recovered elsewhere. -/
theorem roundTrip_ten :
    Ends (smallPass sourceIds receivedIds 877).run
      (smallHeap 877 #[84, 118, 82, 81, 32, 114, 111, 117, 110, 100] 12) fun err h' =>
        err = 0 ∧ ∃ Y : Table GF256, (M256v.make 12 1 ⟨3, 0⟩).Holds h' Y ∧
          Ends (smallPass receivedIds sourceIds 939).run
            (smallHeap 939 (Array.ofFn fun i : Fin 12 => (Y i 0).byte) 10) fun err g' =>
              err = 0 ∧ (M256v.make 10 1 ⟨3, 0⟩).Holds g'
                (M256v.rowMajor 1 #[84, 118, 82, 81, 32, 114, 111, 117, 110, 100]) := by
  have hP := parametersGet_valid parametersGet_ten (by decide)
  have hp := smallPass_fits sourceIds receivedIds 877
    #[84, 118, 82, 81, 32, 114, 111, 117, 110, 100] (by decide) (by decide +kernel)
  have hcompiles := (rqInterCompile_ret_zero hP hp.compile).mpr fullRank_sourceIds
  refine (roundTrip parametersGet_ten (by decide) rfl hp hcompiles
    (M256v.holds_make rfl (by decide))).mono fun err h' hpost => ?_
  obtain ⟨herr, C, Y, -, hY, hback⟩ := hpost
  have hq := smallPass_fits receivedIds sourceIds 939
    (Array.ofFn fun i : Fin 12 => (Y i 0).byte) (by decide) (by decide +kernel)
  have hcompiles' := (rqInterCompile_ret_zero hP hq.compile).mpr fullRank_receivedIds
  have hend := hback (smallPass receivedIds sourceIds 939) _ rfl hq hcompiles'
    (holds_smallHeap 939 12 10 Y)
  exact ⟨herr, Y, hY, hend.mono fun _ _ hpost => ⟨hpost.1, hpost.2.2⟩⟩

end TvRQ
