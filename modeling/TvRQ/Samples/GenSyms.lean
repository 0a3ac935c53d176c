/-
# A code in a pipeline

`gen_syms.c` makes of one run of the code two programs that read from the
standard input and write to the standard output: the first one turns symbols
into the block that they determine, the second one turns a block into symbols.
Piped into each other they do what `transcode` does with one block of a file.
-/

import TvRQ.Samples.FileRoundTrip

namespace TvRQ

open Imperative Heap Finset Blocks

/-- The memory of a run.  The program is only there in the first mode. -/
structure SymsBuffers where
  progMem : Ptr
  indata : Ptr
  outdata : Ptr

/-- Read bytes from the standard input, as many as there are; their number is returned. -/
def freadStdin (z : Sizes) (p : Ptr) (size : ℕ) (stdin : List UInt8) : Prog Client ℕ := do
  writeBytes z p (stdin.take size)
  pure (stdin.take size).length

/-- Mode `iblock`: the success and what has been written to the standard output. -/
def genIblock (K : ℤ) (T : ℕ) (ESIs : List UInt32) (stdin : List UInt8) (x : SymsBuffers) :
    Prog Client (Bool × List UInt8) :=
  if (ESIs.length : ℤ) < K then
    pure (false, [])
  else do
    let nExtra ← embed (intOf (ESIs.length - K))
    let (err, sizes) ← embed (rqInterGetMemSizes K nExtra true true true)
    if err ≠ 0 then
      pure (false, [])
    else do
      let z : Sizes := .ofQuery sizes (0, none, none) x.progMem
      let err ← runNofail (· ≠ 0) (Call.run z (.interInit K nExtra) ::
        ((ESIs.map fun X => Call.run z (addOne X)) ++ [Call.run z .interCompile]))
      if err ≠ 0 then
        pure (false, [])
      else do
        let indataSize := T * ESIs.length
        let ret ← freadStdin z x.indata indataSize stdin
        if ret ≠ indataSize then
          pure (false, [])
        else do
          let outdataSize := sizes.interSymNum.getD 0 * T
          let err ← Call.run z (.interExecute T x.indata indataSize x.outdata outdataSize)
          if err ≠ 0 then
            pure (false, [])
          else do
            let out ← Client.onHeap (readBytes outdataSize x.outdata)
            pure (true, out)

/-- Mode `iosym`. -/
def genIosym (K : ℤ) (T : ℕ) (ESIs : List UInt32) (stdin : List UInt8) (x : SymsBuffers) :
    Prog Client (Bool × List UInt8) := do
  let (err, sizes) ← embed (rqInterGetMemSizes K 0 false false true)
  if err ≠ 0 then
    pure (false, [])
  else do
    let z : Sizes :=
      .ofQuery ⟨none, none, none⟩ (rqOutGetMemSizes ESIs.length true true) x.progMem
    let err ← runNofail (· ≠ 0) (Call.run z (.outInit K) ::
      ((ESIs.map fun X => Call.run z (outAddOne X)) ++ [Call.run z .outCompile]))
    if err ≠ 0 then
      pure (false, [])
    else do
      let indataSize := T * sizes.interSymNum.getD 0
      let ret ← freadStdin z x.indata indataSize stdin
      if ret ≠ indataSize then
        pure (false, [])
      else do
        let _ ← embed (intOf (T * ESIs.length))
        let outdataSize := T * ESIs.length
        let err ← Call.run z (.outExecute T x.indata x.outdata outdataSize)
        if err ≠ 0 then
          pure (false, [])
        else do
          let out ← Client.onHeap (readBytes outdataSize x.outdata)
          pure (true, out)

section Runs

variable {K : ℤ} {P : Parameters} {E F : List UInt32} {w : ℕ} {stdin : List UInt8}
  {L : Layout} {x : SymsBuffers} {s : Client} {a : Codec}

/-! ## One run -/

/-- Numbers of type `int`, and memory for the program, the symbols and the block. -/
structure IblockInput (P : Parameters) (E : List UInt32) (w : ℕ) (x : SymsBuffers) (s : Client) :
    Prop where
  symSize_lt : w < 2 ^ 31
  program_lt : constraintRows P E * P.L < 2 ^ 31
  sizes : (clientSizes P E x.progMem 0).Fits s
  buffers : SymbolBuffers s.heap.load w x.indata E.length x.outdata P.L
  indata_ne : x.indata.blk ≠ x.progMem.blk
  outdata_ne : x.outdata.blk ≠ x.progMem.blk

/-- The sizes of a run that only emits symbols. -/
def iosymSizes (F : List UInt32) (progMem : Ptr) : Sizes where
  interWorkSize := 0
  interProgMem := progMem
  interProgSize := 0
  outWorkSize := sizeofWorkMem + 4 * F.length
  outProgSize := sizeofWorkMem + 4 * F.length

structure IosymInput (P : Parameters) (F : List UInt32) (w : ℕ) (x : SymsBuffers) (s : Client) :
    Prop where
  symSize_pos : 1 ≤ w
  symSize_lt : w < 2 ^ 31
  output_lt : w * F.length < 2 ^ 31
  sizes : (iosymSizes F x.progMem).Fits s
  buffers : SymbolBuffers s.heap.load w x.indata P.L x.outdata F.length
  indata_ne : x.indata.blk ≠ x.progMem.blk
  outdata_ne : x.outdata.blk ≠ x.progMem.blk

theorem freadStdin_ends (hR : Related L s a) {p : Ptr} {size : ℕ}
    (hp : a.bytes.Allocated p size) :
    Ends (freadStdin L.toSizes p size stdin) s fun ret s' =>
      ret = min size stdin.length ∧
        ∃ m, Bytes.Written p (stdin.take size) a.bytes m ∧ Related L s' { a with bytes := m } := by
  have hroom : a.bytes.Allocated p (stdin.take size).length := by
    intro k hk
    rw [List.length_take] at hk
    exact hp k (by omega)
  apply (writeBytes_ends hR hroom).bind
  rintro _ s' ⟨m, hm, hR'⟩
  exact ends_pure.mpr ⟨List.length_take, m, hm, hR'⟩

/-- What the standard output gets is in memory. -/
theorem readOut_ends (hR : Related L s a) {p : Ptr} {n : ℕ} {A : Table GF256}
    (hA : a.bytes.Shows p n w A) :
    Ends (Client.onHeap (readBytes (n * w) p)) s fun out _ => out = blockBytes n w A := by
  have hread := readBytes_ends (Bytes.Stores.load (hR.bytes ▸ hA.stores))
  rw [length_blockBytes] at hread
  exact ends_within.mpr (hread.mono fun _ _ h => h.1)

/-- The first mode has what it needs: a supported number of source symbols, enough IDs and
all of their symbols. -/
def EnoughInput (P : Parameters) (E : List UInt32) (w : ℕ) (stdin : List UInt8) : Prop :=
  P.K ≠ -1 ∧ FullRank P E ∧ E.length * w ≤ stdin.length

noncomputable instance (P : Parameters) (E : List UInt32) (w : ℕ) (stdin : List UInt8) :
    Decidable (EnoughInput P E w stdin) := inferInstanceAs (Decidable (_ ∧ _ ∧ _))

/-- The first mode prints the block that the symbols determine.  It fails if the number of
source symbols is not supported, if the IDs are too few, and if the input is too short. -/
theorem genIblock_ends (hget : parametersGet K = .ok P) (hint : IsInt (E.length - K))
    (hin : IblockInput P E w x s) :
    Ends (genIblock K w E stdin x) s fun out _ =>
      if EnoughInput P E w stdin then
        out.1 = true ∧ ∃ C, Determines P E w (blockTable w (stdin.take (E.length * w))) C ∧
          out.2 = blockBytes P.L w C
      else out = (false, []) := by
  unfold genIblock
  by_cases hfew : (E.length : ℤ) < K
  · have hnot : ¬ EnoughInput P E w stdin := by
      rintro ⟨hK, hfull, -⟩
      have hle := hfull.K_le_dedup (parametersGet_valid hget hK)
      have hdedup := E.dedup_sublist.length_le
      have hKeq := (parametersGet_row hget hK).2.1
      omega
    rw [if_pos hfew]
    simp only [if_neg hnot]
    exact ends_pure.mpr rfl
  have hextra : intOf (E.length - K) = .ok (E.length - K) := intOf_eq_ok.mpr ⟨hint, rfl⟩
  rw [if_neg hfew, ends_bind, ends_embed]
  refine ⟨_, hextra, ?_⟩
  rw [ends_bind, ends_embed]
  by_cases hK : P.K = -1
  · have hnot : ¬ EnoughInput P E w stdin := fun h => h.1 hK
    simp only [if_neg hnot]
    exact ⟨_, rqInterGetMemSizes_unsupported hget hK _ _ _ _, ends_pure.mpr rfl⟩
  have hP := parametersGet_valid hget hK
  have hsizes : rqInterGetMemSizes K (E.length - K) true true true = .ok (0,
      ⟨some (clientSizes P E x.progMem 0).interWorkSize,
        some (clientSizes P E x.progMem 0).interProgSize, some P.L⟩) :=
    rqInterGetMemSizes_client hget hK hin.program_lt x.progMem 0 true
  let L : Layout :=
    clientLayout hP hin.program_lt x.progMem (by decide : (0 - sizeofWorkMem) / 4 < 2 ^ 31)
  have hL : L.toSizes = clientSizes P E x.progMem 0 := rfl
  have hR : Related L s (.empty (L.bytes s.heap)) := Sizes.Fits.related hin.sizes
  refine ⟨_, hsizes, ?_⟩
  dsimp only
  rw [if_neg (by decide)]
  refine Ends.bind (R := fun err s' => (FullRank P E ∧ err = 0 ∧ ∃ a', Related L s' a' ∧
    a'.interProg = some (.ofIds hget hK E) ∧ a'.bytes = L.bytes s.heap) ∨
      (¬ FullRank P E ∧ err ≠ 0)) ?_ ?_
  · refine runNofail_cons_ends rfl (clientInit_ends hget hK hin.program_lt hL hR) fun s₁ hR₁ => ?_
    refine clientAdd_ends hget hK hL rfl hR₁ fun s₂ hR₂ => ?_
    refine clientCompile_cons_ends (L := L) hget hK hL rfl rfl hR₂ (fun hfull s₃ hR₃ => ?_)
      fun hnot _ => Or.inr ⟨hnot, by decide⟩
    exact ends_pure.mpr (Or.inl ⟨hfull, rfl, _, hR₃, rfl, rfl⟩)
  rintro err s₁ (⟨hfull, rfl, a, hR₁, hprog, hbytes⟩ | ⟨hnot, herr⟩)
  swap
  · have hnot' : ¬ EnoughInput P E w stdin := fun h => hnot h.2.1
    rw [if_pos herr]
    simp only [if_neg hnot']
    exact ends_pure.mpr rfl
  have hbuf : SymbolBuffers a.bytes w x.indata E.length x.outdata P.L :=
    hbytes ▸ symbolBuffers_bytes hin.buffers hin.indata_ne hin.outdata_ne
  rw [if_neg (by decide), Nat.mul_comm w]
  apply (freadStdin_ends hR₁ hbuf.src_allocated).bind
  rintro ret s₂ ⟨rfl, m, hm, hR₂⟩
  by_cases hshort : E.length * w ≤ stdin.length
  swap
  · have hnot : ¬ EnoughInput P E w stdin := fun h => hshort h.2.2
    rw [if_pos (by omega)]
    simp only [if_neg hnot]
    exact ends_pure.mpr rfl
  have hlen : (stdin.take (E.length * w)).length = E.length * w := by
    rw [List.length_take]
    omega
  have hall : EnoughInput P E w stdin := ⟨hK, hfull, hshort⟩
  rw [if_neg (by omega)]
  simp only [if_pos hall]
  have hbuf' := hbuf.mono fun _ hq => hm.isSome hq
  apply (hR₂.interExecute_ends hprog hin.symSize_lt (E.length * w) hbuf'
    (hm.stores.shows hlen)).bind
  rintro err s₃ ⟨rfl, m', C, hC, hm', hR₃⟩
  rw [if_neg (by decide)]
  apply (readOut_ends hR₃ hm'.shows).bind
  rintro out s₄ rfl
  exact ends_pure.mpr ⟨rfl, C, hC, rfl⟩

/-- The number of symbols of a block alone. -/
theorem rqInterGetMemSizes_symNum (hget : parametersGet K = .ok P) (hK : P.K ≠ -1) :
    rqInterGetMemSizes K 0 false false true = .ok (0, ⟨none, none, some P.L⟩) := by
  have hP := parametersGet_valid hget hK
  have hL := hP.L_eq
  have hle := hP.fields_le
  have hKprime : intOf (0 + (P.Kprime : ℤ)) = .ok P.Kprime := by
    rw [zero_add]
    exact intOf_natCast (by omega)
  have hS : intOf ((P.Kprime : ℤ) + P.S) = .ok (P.Kprime + P.S) := by
    exact_mod_cast intOf_natCast (n := P.Kprime + P.S) (by omega)
  have hH : intOf ((P.Kprime : ℤ) + P.S + P.H) = .ok (P.Kprime + P.S + P.H) := by
    exact_mod_cast intOf_natCast (n := P.Kprime + P.S + P.H) (by omega)
  refine bind_eq_ok.mpr ⟨P, hget, ?_⟩
  rw [if_neg hK]
  refine bind_eq_ok.mpr ⟨_, hKprime, ?_⟩
  refine bind_eq_ok.mpr ⟨_, hS, ?_⟩
  exact bind_eq_ok.mpr ⟨_, hH, rfl⟩

/-- The second mode prints symbols of the block. -/
theorem genIosym_ends (hget : parametersGet K = .ok P) (hin : IosymInput P F w x s) :
    Ends (genIosym K w F stdin x) s fun out _ =>
      out = if P.K ≠ -1 ∧ P.L * w ≤ stdin.length then
        (true, blockBytes F.length w (symbolTable P F (blockTable w (stdin.take (P.L * w)))))
      else (false, []) := by
  unfold genIosym
  rw [ends_bind, ends_embed]
  by_cases hK : P.K = -1
  · rw [if_neg (fun h => h.1 hK)]
    exact ⟨_, rqInterGetMemSizes_unsupported hget hK _ _ _ _, ends_pure.mpr rfl⟩
  have hlen : F.length ≤ w * F.length := Nat.le_mul_of_pos_left _ hin.symSize_pos
  have hlen_lt : F.length < 2 ^ 31 := hlen.trans_lt hin.output_lt
  have hcap : (iosymSizes F x.progMem).outCap = F.length := by
    show (sizeofWorkMem + 4 * F.length - sizeofWorkMem) / 4 = _
    omega
  let L : Layout := {
    toSizes := iosymSizes F x.progMem
    interCap_lt := by
      show (0 - sizeofWorkMem) / 4 < 2 ^ 30
      decide
    outCap_lt := hcap.symm ▸ hlen_lt }
  have hR : Related L s (.empty (L.bytes s.heap)) := Sizes.Fits.related hin.sizes
  refine ⟨_, rqInterGetMemSizes_symNum hget hK, ?_⟩
  dsimp only
  rw [if_neg (by decide), rqOutGetMemSizes_client hlen_lt]
  apply (outProgram_ends (L := L) hget hK hcap (Nat.le_add_right _ _) rfl hR).bind
  rintro err s₁ ⟨rfl, hR₁⟩
  have hbuf : SymbolBuffers (L.bytes s.heap) w x.indata P.L x.outdata F.length :=
    symbolBuffers_bytes hin.buffers hin.indata_ne hin.outdata_ne
  rw [if_neg (by decide), Option.getD_some, Nat.mul_comm w P.L, Nat.mul_comm w F.length]
  apply (freadStdin_ends hR₁ hbuf.src_allocated).bind
  rintro ret s₂ ⟨rfl, m, hm, hR₂⟩
  by_cases hshort : P.L * w ≤ stdin.length
  swap
  · rw [if_pos (show min (P.L * w) stdin.length ≠ P.L * w by omega), if_neg fun h => hshort h.2]
    exact ends_pure.mpr rfl
  have hread : (stdin.take (P.L * w)).length = P.L * w := by
    rw [List.length_take]
    omega
  rw [if_neg (show ¬ min (P.L * w) stdin.length ≠ P.L * w by omega), if_pos ⟨hK, hshort⟩,
    ends_bind, ends_embed]
  have hint := intOf_natCast hin.output_lt
  rw [Nat.cast_mul] at hint
  refine ⟨_, hint, ?_⟩
  apply (hR₂.outExecute_ends rfl hin.symSize_lt (hbuf.mono fun _ hq => hm.isSome hq)
    (hm.stores.shows hread)).bind
  rintro err s₃ ⟨rfl, m', hm', hR₃⟩
  rw [if_neg (by decide)]
  apply (readOut_ends hR₃ hm'.shows).bind
  rintro out s₄ rfl
  exact ends_pure.mpr rfl

/-! ## The pipeline -/

/-- The second run reads the block that the first one has printed. -/
theorem genIosym_pipe_ends (hget : parametersGet K = .ok P) (hK : P.K ≠ -1) {b : List UInt8}
    {C : Table GF256} (hC : Determines P E w (blockTable w b) C) (hin : IosymInput P F w x s) :
    Ends (genIosym K w F (blockBytes P.L w C) x) s fun syms _ =>
      syms.1 = true ∧ Encodes P E F w b syms.2 := by
  have hlen : (blockBytes P.L w C).length = P.L * w := length_blockBytes
  apply (genIosym_ends hget hin).mono
  rintro syms s' rfl
  rw [if_pos ⟨hK, hlen.ge⟩, List.take_of_length_le hlen.le]
  refine ⟨rfl, C, hC, blockBytes_congr fun r _ c hc => ?_⟩
  exact symbolTable_congr fun j hj => blockTable_blockBytes hj hc

/-- Both runs together turn a block of input symbols into the symbols of other IDs. -/
theorem genSyms_pipe_ends (hget : parametersGet K = .ok P) (hK : P.K ≠ -1)
    (hfull : FullRank P E) (hlen : E.length * w ≤ stdin.length) (hin : IblockInput P E w x s) :
    Ends (genIblock K w E stdin x) s fun blk _ => blk.1 = true ∧
      ∀ y t, IosymInput P F w y t → Ends (genIosym K w F blk.2 y) t fun syms _ =>
        syms.1 = true ∧ Encodes P E F w (stdin.take (E.length * w)) syms.2 := by
  have hint : IsInt (E.length - K) := by
    have hP := parametersGet_valid hget hK
    have hrows := constraintRows_lt hP hin.program_lt
    have hKeq := (parametersGet_row hget hK).2.1
    have hone := hP.one_le_K
    have hKprime := hP.K_le
    have hmax := hP.Kprime_le
    unfold constraintRows at hrows
    exact ⟨by omega, by omega⟩
  apply (genIblock_ends hget hint hin).mono
  rintro ⟨ok, blk⟩ s' hblk
  rw [if_pos ⟨hK, hfull, hlen⟩] at hblk
  obtain ⟨rfl, C, hC, rfl⟩ := hblk
  exact ⟨rfl, fun y t hin' => genIosym_pipe_ends hget hK hC hin'⟩

/-- Four runs in a pipeline, to other symbols and back, print the source symbols if both
lists of IDs have full rank and the sizes are of type `int`, as `IblockInput` and
`IosymInput` say. -/
theorem genSyms_roundTrip (hget : parametersGet K = .ok P) (hK : P.K ≠ -1)
    (hE : (E.length : ℤ) = K) (hfullE : FullRank P E) (hfullF : FullRank P F)
    (hlen : E.length * w ≤ stdin.length) (hin : IblockInput P E w x s) :
    Ends (genIblock K w E stdin x) s fun blk _ =>
      ∀ x₁ s₁, IosymInput P F w x₁ s₁ → Ends (genIosym K w F blk.2 x₁) s₁ fun syms _ =>
        ∀ x₂ s₂, IblockInput P F w x₂ s₂ → Ends (genIblock K w F syms.2 x₂) s₂ fun blk' _ =>
          ∀ x₃ s₃, IosymInput P E w x₃ s₃ → Ends (genIosym K w E blk'.2 x₃) s₃ fun back _ =>
            back = (true, stdin.take (E.length * w)) := by
  have hP := parametersGet_valid hget hK
  have hKeq : P.K = K := (parametersGet_row hget hK).2.1
  have htake : (stdin.take (E.length * w)).length = E.length * w := by
    rw [List.length_take]
    omega
  apply (genSyms_pipe_ends hget hK hfullE hlen hin).mono
  rintro blk s' ⟨-, hpipe⟩ x₁ s₁ hin₁
  apply (hpipe x₁ s₁ hin₁).mono
  rintro ⟨ok, syms⟩ s₁' ⟨-, hencodes⟩ x₂ s₂ hin₂
  have hsyms : syms.length = F.length * w := hencodes.length_eq
  apply (genSyms_pipe_ends hget hK hfullF hsyms.ge hin₂).mono
  rintro blk' s₂' ⟨-, hpipe'⟩ x₃ s₃ hin₃
  apply (hpipe' x₃ s₃ hin₃).mono
  rintro ⟨ok', back⟩ s₃' ⟨rfl, hback⟩
  rw [List.take_of_length_le hsyms.le] at hback
  have hsame : back = stdin.take (E.length * w) :=
    hencodes.inverse hP (hE.trans hKeq.symm) htake hback
  rw [hsame]

/-- What two programs make of the same source symbols. -/
theorem Encodes.unique (hP : P.Valid) (hE : (E.length : ℤ) = P.K) {b b₁ b₂ : List UInt8}
    (h₁ : Encodes P E F w b b₁) (h₂ : Encodes P E F w b b₂) : b₁ = b₂ := by
  obtain ⟨C₁, hC₁, rfl⟩ := h₁
  obtain ⟨C₂, hC₂, rfl⟩ := h₂
  have hsame := hC₂.unique C₁ (hC₁.solves (constraintRows_eq hP hE))
  exact blockBytes_congr fun r _ c hc => symbolTable_congr fun j hj => hsame j hj c hc

/-- For one block of as many symbols as a block has source symbols the pipeline prints what
`transcode` writes, and it fails when `transcode` does.  All runs have sizes of type `int`. -/
theorem genSyms_eq_transcode (hget : parametersGet K = .ok P) (hE : (E.length : ℤ) = K)
    {file : List UInt8} (hlen : file.length = E.length * w) {z : FileBuffers} {u : Client}
    (htranscode : TranscodeInput P E F w file z u) :
    Ends (transcode K w E F file z) u fun out _ =>
      ∀ x s, IblockInput P E w x s → Ends (genIblock K w E file x) s fun blk _ =>
        ∀ y t, IosymInput P F w y t → Ends (genIosym K w F blk.2 y) t fun syms _ =>
          syms.2 = out.2 ∧ ((blk.1 = true ∧ syms.1 = true) ↔ out.1 = 0) := by
  have hint : IsInt (E.length - K) := by
    rw [hE, sub_self]
    decide
  apply (transcode_blockwise hget hint htranscode).mono
  rintro ⟨status, out⟩ u' hout x s hin
  by_cases hrun : P.K ≠ -1 ∧ FullRank P E
  · obtain ⟨hK, hfull⟩ := hrun
    have hP := parametersGet_valid hget hK
    have hKeq : P.K = K := (parametersGet_row hget hK).2.1
    have hpos : 0 < E.length * w := Nat.mul_pos (hfull.length_pos hP) htranscode.symSize_pos
    rw [if_neg hK, if_pos hfull, hlen, if_pos (Nat.dvd_refl _)] at hout
    obtain ⟨rfl, hblocks⟩ := hout
    rw [← List.append_nil file] at hblocks
    obtain ⟨b, rest, rfl, hencodes, hrest⟩ := hblocks.append_inv hlen
    rw [hrest.of_lt hpos, List.append_nil]
    apply (genSyms_pipe_ends hget hK hfull hlen.ge hin).mono
    rintro blk s' ⟨hok, hpipe⟩ y t hin'
    apply (hpipe y t hin').mono
    rintro syms t' ⟨hok', hencodes'⟩
    rw [List.take_of_length_le hlen.le] at hencodes'
    exact ⟨hencodes'.unique hP (hE.trans hKeq.symm) hencodes, by simp [hok, hok']⟩
  · have hfailed : out = [] ∧ status ≠ 0 := by
      by_cases hK : P.K = -1
      · rw [if_pos hK] at hout
        cases hout
        exact ⟨rfl, by decide⟩
      · rw [if_neg hK, if_neg fun hfull => hrun ⟨hK, hfull⟩] at hout
        cases hout
        exact ⟨rfl, by decide⟩
    apply (genIblock_ends hget hint hin).mono
    rintro blk s' hblk y t hin'
    rw [if_neg fun h => hrun ⟨h.1, h.2.1⟩] at hblk
    subst hblk
    apply (genIosym_ends hget hin').mono
    rintro syms t' rfl
    have hempty : ¬ (P.K ≠ -1 ∧ P.L * w ≤ ([] : List UInt8).length) := by
      rintro ⟨hK, hle⟩
      have hL := (parametersGet_valid hget hK).L_eq
      have hS := (parametersGet_valid hget hK).S_pos
      have hLw : 0 < P.L * w := Nat.mul_pos (by omega) htranscode.symSize_pos
      rw [List.length_nil] at hle
      omega
    rw [if_neg hempty]
    exact ⟨hfailed.1.symm, by simp [hfailed.2]⟩

end Runs

/-- The memory of a run in the first mode. -/
def iblockMemory (n : ℕ) : Client where
  interWork := freshMem n
  interProg := none
  outWork := freshMem 0
  outProgMem := #[]
  heap := ⟨#[Array.replicate (sizeofInterProgram + 31 * (n + 17)) 0, Array.replicate n 0,
    Array.replicate 27 0]⟩

def iosymMemory (m : ℕ) : Client where
  interWork := freshMem 0
  interProg := none
  outWork := freshMem m
  outProgMem := Array.replicate (13 + m) 0
  heap := ⟨#[#[], Array.replicate 27 0, Array.replicate m 0]⟩

def smallSyms : SymsBuffers := ⟨⟨0, 0⟩, ⟨1, 0⟩, ⟨2, 0⟩⟩

theorem iblockInput_small {E : List UInt32} (hE : E.length < 1000) :
    IblockInput params10 E 1 smallSyms (iblockMemory E.length) where
  symSize_lt := by decide
  program_lt := by
    show (E.length + 0 + 7 + 10) * 27 < 2 ^ 31
    omega
  sizes := {
    interWork_size := by
      rw [interCap_clientSizes]
      exact Array.size_replicate
    outWork_size := by
      show (Array.replicate 0 (0 : UInt32)).size = (0 - sizeofWorkMem) / 4
      decide
    outProg_size := by
      show (#[] : Array UInt32).size = 0 / 4
      decide
    interProg_room := fun k hk => by
      have hk' : k < sizeofInterProgram + 4 * (E.length + 0 + 7 + 10) +
        (E.length + 0 + 7 + 10) * 27 := hk
      have hk'' : k < sizeofInterProgram + 31 * (E.length + 17) := by omega
      exact load_isSome.mpr
        (by simpa [iblockMemory, clientSizes, smallSyms, blockSize] using hk'') }
  buffers := {
    src_allocated := fun k hk =>
      load_isSome.mpr (by simpa [iblockMemory, smallSyms, blockSize] using hk)
    dst_allocated := fun k hk => by
      have hk' : k < 27 * 1 := hk
      exact load_isSome.mpr (by simpa [iblockMemory, smallSyms, blockSize] using hk')
    apart := disjoint_bytesFrom (by decide) }
  indata_ne := by decide
  outdata_ne := by decide

theorem iosymInput_small {F : List UInt32} (hF : F.length < 1000) :
    IosymInput params10 F 1 smallSyms (iosymMemory F.length) where
  symSize_pos := le_rfl
  symSize_lt := by decide
  output_lt := by omega
  sizes := {
    interWork_size := by
      show (Array.replicate 0 (0 : UInt32)).size = (0 - sizeofWorkMem) / 4
      decide
    outWork_size := by
      show (Array.replicate F.length (0 : UInt32)).size =
        (sizeofWorkMem + 4 * F.length - sizeofWorkMem) / 4
      rw [Array.size_replicate]
      omega
    outProg_size := by
      show (Array.replicate (13 + F.length) (0 : UInt32)).size =
        (sizeofWorkMem + 4 * F.length) / 4
      rw [Array.size_replicate, sizeofWorkMem]
      omega
    interProg_room := fun k hk => absurd hk (Nat.not_lt_zero k) }
  buffers := {
    src_allocated := fun k hk => by
      have hk' : k < 27 * 1 := hk
      exact load_isSome.mpr (by simpa [iosymMemory, smallSyms, blockSize] using hk')
    dst_allocated := fun k hk =>
      load_isSome.mpr (by simpa [iosymMemory, smallSyms, blockSize] using hk)
    apart := disjoint_bytesFrom (by decide) }
  indata_ne := by decide
  outdata_ne := by decide

/-- Ten symbols of one byte, printed as twelve others and back. -/
theorem genSyms_roundTrip_ten :
    Ends (genIblock 10 1 sourceIds (List.replicate 10 84) smallSyms) (iblockMemory 10)
      fun blk _ => Ends (genIosym 10 1 receivedIds blk.2 smallSyms) (iosymMemory 12)
        fun syms _ => Ends (genIblock 10 1 receivedIds syms.2 smallSyms) (iblockMemory 12)
          fun blk' _ => Ends (genIosym 10 1 sourceIds blk'.2 smallSyms) (iosymMemory 10)
            fun back _ => back = (true, List.replicate 10 84) := by
  apply (genSyms_roundTrip parametersGet_ten (by decide) rfl fullRank_sourceIds
    fullRank_receivedIds (by decide) (iblockInput_small (by decide))).mono
  intro blk s h
  apply (h smallSyms (iosymMemory 12) (iosymInput_small (by decide))).mono
  intro syms s₁ h₁
  apply (h₁ smallSyms (iblockMemory 12) (iblockInput_small (by decide))).mono
  intro blk' s₂ h₂
  exact h₂ smallSyms (iosymMemory 10) (iosymInput_small (by decide))

theorem genSyms_eq_transcode_ten :
    Ends (transcode 10 1 sourceIds receivedIds (List.replicate 10 84) smallBuffers)
      (fileClient 10 12) fun out _ =>
        Ends (genIblock 10 1 sourceIds (List.replicate 10 84) smallSyms) (iblockMemory 10)
          fun blk _ => Ends (genIosym 10 1 receivedIds blk.2 smallSyms) (iosymMemory 12)
            fun syms _ => syms.2 = out.2 ∧ ((blk.1 = true ∧ syms.1 = true) ↔ out.1 = 0) := by
  apply (genSyms_eq_transcode parametersGet_ten rfl (by decide)
    (transcodeInput_small (by decide) (by decide) (by decide))).mono
  intro out u h
  apply (h smallSyms (iblockMemory 10) (iblockInput_small (by decide))).mono
  intro blk s h₁
  exact h₁ smallSyms (iosymMemory 12) (iosymInput_small (by decide))

end TvRQ
