/-
# Decoding what was encoded

`test_consistency_for` of `rq_encdec_match.c` encodes random data, wipes its
memory, decodes, and compares.  The comparison never fails, and no call but the
compiler ever returns an error: whether the check is passed is decided by the
ranks of the two lists of IDs.
-/

import TvRQ.Samples.FileRoundTrip

namespace TvRQ

open Imperative Heap

/-- The program memory and the arrays. -/
structure MatchBuffers where
  progMem : Ptr
  src : Ptr
  iblock : Ptr
  enc : Ptr
  dec : Ptr

/-- The calls of the encoder, and those of the decoder with other places. -/
def halfCalls (z : Sizes) (K : ℤ) (nInter : ℕ) (inBeg outBeg : ℤ) (inMem iblock outMem : Ptr) :
    List (Prog Client ℤ) :=
  [Call.run z (.interInit K 0), Call.run z (.interAddIds inBeg K), Call.run z .interCompile,
    Call.run z (.interExecute 4 inMem (K.toNat * 4) iblock (nInter * 4)),
    Call.run z (.outInit K), Call.run z (.outAddIds outBeg K), Call.run z .outCompile,
    Call.run z (.outExecute 4 iblock outMem (K.toNat * 4))]

/-- Work memory that was set to zero. -/
def RqWorkMem.wiped (w : RqWorkMem) : RqWorkMem :=
  ⟨⟨0, 0, 0, 0, 0, 0, 0, 0, 0, 0, 0⟩, 0, 0, Array.replicate w.ESIs.size 0⟩

/-- Set all memory but the symbols to zero.  There is no program in it any more. -/
def wipe (z : Sizes) (iblock : Ptr) (nInter : ℕ) : Prog Client ℤ := do
  modify fun s => { s with
    interWork := s.interWork.wiped
    interProg := none
    outWork := s.outWork.wiped
    outProgMem := Array.replicate s.outProgMem.size 0 }
  Client.onHeap (forRange 0 z.interProgSize fun k => store (z.interProgMem.add k) 0)
  writeBytes z iblock (List.replicate (nInter * 4) 0)
  pure 0

/-- Compare two arrays. -/
def memcmp (n : ℕ) (src dec : Ptr) : Prog Client ℤ := do
  let vs ← Client.onHeap (readBytes n src)
  let vs' ← Client.onHeap (readBytes n dec)
  pure (if vs = vs' then 0 else 1)

/-- Encode and decode the random data; the result is the status. -/
def testConsistencyFor (K encOffs : ℤ) (data : List UInt8) (x : MatchBuffers) :
    Prog Client ℤ := do
  let (err, sizes) ← embed (rqInterGetMemSizes K 0 true true true)
  if err ≠ 0 then
    pure err
  else do
    let z : Sizes := .ofQuery sizes (rqOutGetMemSizes K true true) x.progMem
    let nInter := sizes.interSymNum.getD 0
    writeBytes z x.src data
    runNofail (· ≠ 0) <|
      halfCalls z K nInter 0 encOffs x.src x.iblock x.enc ++
        wipe z x.iblock nInter :: (halfCalls z K nInter encOffs 0 x.enc x.iblock x.dec ++
          [memcmp (K.toNat * 4) x.src x.dec])

section Match

variable {K : ℤ} {P : Parameters} {L : Layout} {s : Client} {a : Codec} {m m' : Bytes}
  {E F b b' : List UInt8} {inMem iblock outMem : Ptr}

/-! ## One half -/

/-- What a half has done: the symbols of other IDs have been written. -/
structure Turned (P : Parameters) (E F : List UInt32) (iblock outMem : Ptr)
    (b b' : List UInt8) (m m' : Bytes) : Prop where
  encodes : Encodes P E F 4 b b'
  stores : m'.Stores outMem b'
  isSome : ∀ p, (m p).isSome → (m' p).isSome
  frame : ∀ p ∉ bytesFrom iblock (P.L * 4), p ∉ bytesFrom outMem (F.length * 4) → m' p = m p

/-- The calls after the compiler has returned 0. -/
theorem turn_ends (hget : parametersGet K = .ok P) (hK : P.K ≠ -1) {ids : List UInt32}
    {outBeg : ℤ} (hids : ids.length = K.toNat) (hroom : sizeofWorkMem ≤ L.outWorkSize)
    (hcap : L.outCap = K.toNat) (hsize : L.outProgSize = sizeofWorkMem + 4 * K.toNat)
    (hR : Related L s a) (hprog : a.interProg = some (.ofIds hget hK ids))
    (hsolve : SymbolBuffers a.bytes 4 inMem K.toNat iblock P.L)
    (hemit : SymbolBuffers a.bytes 4 iblock P.L outMem K.toNat)
    (hlen : b.length = K.toNat * 4) (hb : a.bytes.Stores inMem b)
    {ps : List (Prog Client ℤ)} {Q : ℤ → Client → Prop}
    (hps : ∀ s' a' b', Related L s' a' → Turned P ids (requested outBeg K) iblock outMem b b'
      a.bytes a'.bytes → Ends (runNofail (· ≠ 0) ps) s' Q) :
    Ends (runNofail (· ≠ 0) ([Call.run L.toSizes (.interExecute 4 inMem (K.toNat * 4) iblock
      (P.L * 4)), Call.run L.toSizes (.outInit K), Call.run L.toSizes (.outAddIds outBeg K),
      Call.run L.toSizes .outCompile,
      Call.run L.toSizes (.outExecute 4 iblock outMem (K.toNat * 4))] ++ ps)) s Q := by
  have hK_eq : P.K = K := (parametersGet_row hget hK).2.1
  have hK_pos := (parametersGet_valid hget hK).one_le_K
  have hout_len : (requested outBeg K).length = K.toNat := length_requested _ _
  -- The block of symbols that are solved for stays where it is.
  let Solved : Option Request → Option Request → Client → Prop := fun work prog s' => ∃ m C,
    Related L s' { a with bytes := m, outWork := work, outProg := prog } ∧
      Determines P ids 4 (blockTable 4 b) C ∧ a.bytes.Replaced iblock P.L 4 C m
  refine runNofail_cons_ends (I := Solved a.outWork a.outProg) rfl ?_ fun s₁ hs₁ => ?_
  · have hbuf : SymbolBuffers a.bytes 4 inMem ids.length iblock P.L := hids ▸ hsolve
    have hlen' : b.length = ids.length * 4 := by rw [hlen, hids]
    apply (hR.interExecute_ends hprog (by decide) _ hbuf (hb.shows hlen')).mono
    rintro err s₁ ⟨rfl, m, C, hC, hm, hR₁⟩
    exact ⟨rfl, m, C, hR₁, hC, hm⟩
  refine runNofail_cons_ends (I := Solved (some (.ofIds hget hK [])) a.outProg) rfl ?_
    fun s₂ hs₂ => ?_
  · obtain ⟨m, C, hR₁, hC, hm⟩ := hs₁
    apply (hR₁.outInit_ends (q := .ofIds hget hK []) hget rfl hroom).mono
    rintro err s₂ ⟨rfl, hR₂⟩
    exact ⟨rfl, m, C, hR₂, hC, hm⟩
  refine runNofail_cons_ends (I := Solved (some (.ofIds hget hK (requested outBeg K))) a.outProg)
    rfl ?_ fun s₃ hs₃ => ?_
  · obtain ⟨m, C, hR₂, hC, hm⟩ := hs₂
    have hle : ((Request.ofIds hget hK []).ids.length : ℤ) + K ≤ L.outCap := by
      rw [hcap, Request.ofIds, List.length_nil]
      omega
    apply (hR₂.outAddIds_ends (q := .ofIds hget hK []) rfl (by omega) hle).mono
    rintro err s₃ ⟨rfl, hR₃⟩
    exact ⟨rfl, m, C, hR₃, hC, hm⟩
  let q : Request := .ofIds hget hK (requested outBeg K)
  refine runNofail_cons_ends (I := Solved (some q) (some q)) rfl ?_ fun s₄ hs₄ => ?_
  · obtain ⟨m, C, hR₃, hC, hm⟩ := hs₃
    have hprogSize : q.outSize = L.outProgSize := by
      have hq : q.ids.length = K.toNat := hout_len
      rw [hsize, Request.outSize, hq, sizeofOutProgram, sizeofWorkMem]
      push_cast
      rfl
    apply (hR₃.outCompile_ends (q := q) rfl hprogSize).mono
    rintro err s₄ ⟨rfl, hR₄⟩
    exact ⟨rfl, m, C, hR₄, hC, hm⟩
  obtain ⟨m, C, hR₄, hC, hm⟩ := hs₄
  have hbuf : SymbolBuffers m 4 iblock P.L outMem q.ids.length := by
    rw [show q.ids.length = K.toNat from hout_len]
    exact hemit.mono fun p hp => hm.isSome hp
  have hexec := hR₄.outExecute_ends (q := q) rfl (by decide) hbuf hm.shows
  rw [show q.ids.length = K.toNat from hout_len] at hexec
  let Emitted : Client → Prop := fun s' => ∃ m', Related L s' { a with
    bytes := m', outWork := some q, outProg := some q } ∧
      Bytes.Replaced outMem K.toNat 4 (symbolTable P (requested outBeg K) C) m m'
  refine runNofail_cons_ends (I := Emitted) rfl ?_ fun s₅ hs₅ => ?_
  · apply hexec.mono
    rintro err s₅ ⟨rfl, m', hm', hR₅⟩
    exact ⟨rfl, m', hR₅, hm'⟩
  obtain ⟨m', hR₅, hm'⟩ := hs₅
  refine hps s₅ _ _ hR₅ ⟨⟨C, hC, rfl⟩, ?_, fun p hp => hm'.isSome (hm.isSome hp), ?_⟩
  · rw [hout_len]
    exact hm'.shows.stores
  · intro p hiblock hout
    rw [hout_len] at hout
    exact (hm'.frame p hout).trans (hm.frame p hiblock)

/-- A half goes through, or the IDs at its input are too few. -/
theorem half_ends (hget : parametersGet K = .ok P) (hK : P.K ≠ -1) {progMem : Ptr}
    {inBeg outBeg : ℤ} (hL : L.toSizes = clientSizes P (requested inBeg K) progMem
      (sizeofWorkMem + 4 * K.toNat))
    (hR : Related L s a) (hsolve : SymbolBuffers a.bytes 4 inMem K.toNat iblock P.L)
    (hemit : SymbolBuffers a.bytes 4 iblock P.L outMem K.toNat)
    (hlen : b.length = K.toNat * 4) (hb : a.bytes.Stores inMem b)
    {ps : List (Prog Client ℤ)} {Q : ℤ → Client → Prop}
    (hps : FullRank P (requested inBeg K) → ∀ s' a' b', Related L s' a' →
      Turned P (requested inBeg K) (requested outBeg K) iblock outMem b b' a.bytes a'.bytes →
        Ends (runNofail (· ≠ 0) ps) s' Q)
    (hfail : ¬ FullRank P (requested inBeg K) → ∀ s', Q rqErrInsuffIds s') :
    Ends (runNofail (· ≠ 0) (halfCalls L.toSizes K P.L inBeg outBeg inMem iblock outMem ++ ps))
      s Q := by
  have hE_len : (requested inBeg K).length = K.toNat := length_requested _ _
  have houtCap : L.outCap = K.toNat := by rw [hL, outCap_clientSizes]
  have houtRoom : sizeofWorkMem ≤ L.outWorkSize := by
    rw [hL]
    exact Nat.le_add_right _ _
  refine clientRange_cons_ends hget hK hL rfl rfl hR (fun hfull s₃ hR₃ => ?_) hfail
  have hprogSize : L.outProgSize = sizeofWorkMem + 4 * K.toNat := by
    rw [hL]
    rfl
  exact turn_ends hget hK hE_len houtRoom houtCap hprogSize hR₃ rfl hsolve hemit hlen hb
    (hps hfull)

/-! ## Both halves -/

/-- Setting program memory to zero changes nothing beside it. -/
theorem clearProgram_ends {h : Heap UInt8}
    (hroom : ∀ k < L.interProgSize, (h.load (L.interProgMem.add k)).isSome) :
    Ends (forRange 0 L.interProgSize fun k => store (L.interProgMem.add k) (0 : UInt8)) h
      fun _ h' => L.bytes h' = L.bytes h ∧
        ∀ k < L.interProgSize, (h'.load (L.interProgMem.add k)).isSome := by
  refine forRange_ends (fun _ h' => L.bytes h' = L.bytes h ∧
    ∀ k < L.interProgSize, (h'.load (L.interProgMem.add k)).isSome) (Nat.zero_le _) ?_ ⟨rfl, hroom⟩
  intro k h' _ hk ⟨hbytes, hroom'⟩
  rw [ends_store]
  refine ⟨hroom' k hk, ?_, fun i hi => ?_⟩
  · rw [← hbytes]
    funext p
    unfold Layout.bytes
    split_ifs with hblk
    · rfl
    · apply load_store_of_ne
      rintro rfl
      exact hblk rfl
  · by_cases heq : L.interProgMem.add i = L.interProgMem.add k
    · rw [heq, load_store_self (hroom' k hk)]
      rfl
    · rw [load_store_of_ne heq]
      exact hroom' i hi

/-- Nothing but symbols is left. -/
theorem wipe_ends (hR : Related L s a) {n : ℕ} (hp : a.bytes.Allocated iblock (n * 4)) :
    Ends (wipe L.toSizes iblock n) s fun err s' => err = 0 ∧
      ∃ m, Bytes.Written iblock (List.replicate (n * 4) 0) a.bytes m ∧ Related L s' (.empty m) := by
  unfold wipe
  rw [ends_bind, ends_modify, ends_bind, Client.onHeap, ends_within]
  apply (clearProgram_ends hR.interProg_room).mono
  rintro _ h' ⟨hbytes, hroom⟩
  have hfits : L.toSizes.Fits ⟨s.interWork.wiped, none, s.outWork.wiped,
      Array.replicate s.outProgMem.size 0, h'⟩ := {
    interWork_size := Array.size_replicate.trans hR.interWork_size
    outWork_size := Array.size_replicate.trans hR.outWork_size
    outProg_size := Array.size_replicate.trans hR.outProg_size
    interProg_room := hroom }
  have hR' := hfits.related
  rw [hbytes, ← hR.bytes] at hR'
  have hzero : Bytes.Allocated a.bytes iblock (List.replicate (n * 4) (0 : UInt8)).length := by
    rwa [List.length_replicate]
  apply (writeBytes_ends hR' hzero).bind
  rintro _ s' ⟨m, hm, hR''⟩
  exact ends_pure.mpr ⟨rfl, m, hm, hR''⟩

/-- The arrays are equal if they store the same bytes. -/
theorem memcmp_ends (hR : Related L s a) {src dec : Ptr} (hsrc : a.bytes.Stores src b)
    (hdec : a.bytes.Stores dec b) :
    Ends (memcmp b.length src dec) s fun err _ => err = 0 := by
  have hread : ∀ {p : Ptr}, a.bytes.Stores p b →
      Ends (Client.onHeap (readBytes b.length p)) s fun vs s' => vs = b ∧ s' = s := by
    intro p hp
    rw [Client.onHeap, ends_within]
    apply (readBytes_ends (Bytes.Stores.load (hR.bytes ▸ hp))).mono
    rintro _ _ ⟨rfl, rfl⟩
    exact ⟨rfl, rfl⟩
  unfold memcmp
  apply (hread hsrc).bind
  rintro _ _ ⟨rfl, rfl⟩
  apply (hread hdec).bind
  rintro _ _ ⟨rfl, rfl⟩
  exact ends_pure.mpr (if_pos rfl)

/-- What is there before the check: the symbols fit in each of the arrays, which
lie in other blocks than the program. -/
structure MatchInput (P : Parameters) (K : ℤ) (data : List UInt8) (x : MatchBuffers)
    (s : Client) : Prop where
  program_lt : P.L * P.L < 2 ^ 31
  length_data : data.length = K.toNat * 4
  sizes : (clientSizes P (requested 0 K) x.progMem (sizeofWorkMem + 4 * K.toNat)).Fits s
  src : SymbolBuffers s.heap.load 4 x.src K.toNat x.iblock P.L
  enc : SymbolBuffers s.heap.load 4 x.enc K.toNat x.iblock P.L
  emit : SymbolBuffers s.heap.load 4 x.iblock P.L x.enc K.toNat
  dec : SymbolBuffers s.heap.load 4 x.iblock P.L x.dec K.toNat
  enc_src : Disjoint (bytesFrom x.enc (K.toNat * 4)) (bytesFrom x.src (K.toNat * 4))
  dec_src : Disjoint (bytesFrom x.dec (K.toNat * 4)) (bytesFrom x.src (K.toNat * 4))
  src_ne : x.src.blk ≠ x.progMem.blk
  iblock_ne : x.iblock.blk ≠ x.progMem.blk
  enc_ne : x.enc.blk ≠ x.progMem.blk
  dec_ne : x.dec.blk ≠ x.progMem.blk

/-- Both halves after the data has been written.  The data that was encoded is
still there at the end, and so is what was decoded. -/
theorem halves_ends (hget : parametersGet K = .ok P) (hK : P.K ≠ -1) {encOffs : ℤ}
    {data : List UInt8} {x : MatchBuffers} {t : Client} (hin : MatchInput P K data x t)
    (hL : ∀ beg, L.toSizes =
      clientSizes P (requested beg K) x.progMem (sizeofWorkMem + 4 * K.toNat))
    (hR : Related L s a) (hdata : a.bytes.Stores x.src data)
    (hsome : ∀ p, (L.bytes t.heap p).isSome → (a.bytes p).isSome) :
    Ends (runNofail (· ≠ 0) (halfCalls L.toSizes K P.L 0 encOffs x.src x.iblock x.enc ++
      wipe L.toSizes x.iblock P.L :: (halfCalls L.toSizes K P.L encOffs 0 x.enc x.iblock x.dec ++
        [memcmp (K.toNat * 4) x.src x.dec]))) s fun err _ =>
      err = if FullRank P (requested 0 K) ∧ FullRank P (requested encOffs K) then 0
        else rqErrInsuffIds := by
  have hP := parametersGet_valid hget hK
  have hK_eq : P.K = K := (parametersGet_row hget hK).2.1
  have hK_pos := hP.one_le_K
  have hlen : ∀ beg, (requested beg K).length = K.toNat := fun beg => length_requested beg K
  have hne : x.progMem = L.interProgMem := by rw [hL 0]; rfl
  have hsrc_ne := hne ▸ hin.src_ne
  have hiblock_ne := hne ▸ hin.iblock_ne
  have henc_ne := hne ▸ hin.enc_ne
  have hdec_ne := hne ▸ hin.dec_ne
  have hsrc := (symbolBuffers_bytes hin.src hsrc_ne hiblock_ne).mono hsome
  have hemit := (symbolBuffers_bytes hin.emit hiblock_ne henc_ne).mono hsome
  have henc := (symbolBuffers_bytes hin.enc henc_ne hiblock_ne).mono hsome
  have hdec := (symbolBuffers_bytes hin.dec hiblock_ne hdec_ne).mono hsome
  refine half_ends hget hK (hL 0) hR hsrc hemit hin.length_data hdata ?_ ?_
  swap
  · exact fun hnot s' => (if_neg fun h => hnot h.1).symm
  intro hfullE s₁ a₁ b' hR₁ h₁
  have hb'_len : b'.length = K.toNat * 4 := by rw [h₁.encodes.length_eq, hlen]
  refine runNofail_cons_ends (I := fun s' => ∃ m, Bytes.Written x.iblock
    (List.replicate (P.L * 4) 0) a₁.bytes m ∧ Related L s' (.empty m)) rfl
      (wipe_ends hR₁ fun k hk => h₁.isSome _ (hemit.src_allocated k hk)) ?_
  rintro s₂ ⟨m, hm, hR₂⟩
  have hsome₂ : ∀ p, (a.bytes p).isSome → (m p).isSome := fun p hp => hm.isSome (h₁.isSome p hp)
  -- What was encoded is not wiped.
  have hb' : m.Stores x.enc b' := h₁.stores.congr fun p hp => hm.frame p fun hmem => by
    rw [List.length_replicate] at hmem
    exact Set.disjoint_left.mp hin.enc.apart hmem (hb'_len ▸ hp)
  refine half_ends hget hK (hL encOffs) hR₂ (henc.mono hsome₂) (hdec.mono hsome₂) hb'_len hb' ?_ ?_
  swap
  · exact fun hnot s' => (if_neg fun h => hnot h.2).symm
  intro hfullF s₃ a₃ c hR₃ h₃
  obtain rfl : c = data := h₁.encodes.inverse hP (by rw [hlen]; omega)
    (by rw [hin.length_data, hlen]) h₃.encodes
  have hsrc₃ : a₃.bytes.Stores x.src c := hdata.congr fun p hp => by
    rw [hin.length_data] at hp
    have hiblock : p ∉ bytesFrom x.iblock (P.L * 4) := fun hmem =>
      Set.disjoint_left.mp hin.src.apart hmem hp
    rw [h₃.frame p hiblock fun hmem => Set.disjoint_left.mp hin.dec_src (by rwa [hlen] at hmem) hp]
    rw [show (Codec.empty m).bytes p = m p from rfl,
      hm.frame p fun hmem => hiblock (by rwa [List.length_replicate] at hmem)]
    exact h₁.frame p hiblock fun hmem => Set.disjoint_left.mp hin.enc_src (by rwa [hlen] at hmem) hp
  rw [if_pos ⟨hfullE, hfullF⟩, ← hin.length_data]
  refine runNofail_cons_ends (I := fun _ => True) rfl
    ((memcmp_ends hR₃ hsrc₃ h₃.stores).mono fun _ _ herr => ⟨herr, trivial⟩) ?_
  exact fun _ _ => ends_pure.mpr rfl

/-- The check is passed if both lists of IDs have full rank, that of the source symbols
and that from the offset.  If one of them does not, the compiler says so, and nothing
else ever goes wrong as long as the number of entries of the matrix is an `int`. -/
theorem testConsistencyFor_ret (hget : parametersGet K = .ok P) {encOffs : ℤ}
    {data : List UInt8} {x : MatchBuffers} (hin : MatchInput P K data x s) :
    Ends (testConsistencyFor K encOffs data x) s fun err _ =>
      err = if P.K = -1 then rqErrEdom
        else if FullRank P (requested 0 K) ∧ FullRank P (requested encOffs K) then 0
        else rqErrInsuffIds := by
  unfold testConsistencyFor
  rw [ends_bind, ends_embed]
  by_cases hK : P.K = -1
  · rw [if_pos hK]
    exact ⟨_, rqInterGetMemSizes_unsupported hget hK _ _ _ _, ends_pure.mpr rfl⟩
  simp only [if_neg hK]
  have hP := parametersGet_valid hget hK
  have hK_eq : P.K = K := (parametersGet_row hget hK).2.1
  have hK_pos := hP.one_le_K
  have hKprime := hP.fields_le.1.1
  have hK_le := hP.K_le
  have hlen : ∀ beg, (requested beg K).length = K.toNat := fun beg => length_requested beg K
  have hrows : constraintRows P (requested 0 K) = P.L :=
    constraintRows_eq hP (by rw [hlen]; omega)
  have hsize : constraintRows P (requested 0 K) * P.L < 2 ^ 31 := hrows ▸ hin.program_lt
  have hsizes := rqInterGetMemSizes_client hget hK hsize x.progMem (sizeofWorkMem + 4 * K.toNat)
    true
  rw [hlen, Int.toNat_of_nonneg (by omega), Int.sub_self] at hsizes
  have hout := rqOutGetMemSizes_client (n := K.toNat) (by omega)
  rw [Int.toNat_of_nonneg (by omega)] at hout
  refine ⟨_, hsizes, ?_⟩
  dsimp only
  rw [if_neg (by decide), hout]
  have hcap : (sizeofWorkMem + 4 * K.toNat - sizeofWorkMem) / 4 < 2 ^ 31 := by omega
  let L : Layout := clientLayout hP hsize x.progMem hcap
  have hL : ∀ beg, L.toSizes =
      clientSizes P (requested beg K) x.progMem (sizeofWorkMem + 4 * K.toNat) := fun beg =>
    clientSizes_congr ((hlen 0).trans (hlen beg).symm) _ _
  have hR : Related L s (.empty (L.bytes s.heap)) := Sizes.Fits.related hin.sizes
  have hsrc := (symbolBuffers_bytes (L := L) hin.src hin.src_ne hin.iblock_ne).src_allocated
  rw [← hin.length_data] at hsrc
  show Ends (writeBytes L.toSizes x.src data >>= fun _ => runNofail (· ≠ 0)
    (halfCalls L.toSizes K P.L 0 encOffs x.src x.iblock x.enc ++
      wipe L.toSizes x.iblock P.L :: (halfCalls L.toSizes K P.L encOffs 0 x.enc x.iblock x.dec ++
        [memcmp (K.toNat * 4) x.src x.dec]))) s _
  apply (writeBytes_ends hR hsrc).bind
  rintro _ s₁ ⟨m, hm, hR₁⟩
  exact halves_ends hget hK hin hL hR₁ hm.stores fun p hp => hm.isSome hp

end Match

/-- The memory for ten symbols, and forty bytes in each array. -/
def matchClient : Client where
  interWork := freshMem 10
  interProg := none
  outWork := freshMem 10
  outProgMem := Array.replicate 23 0
  heap := ⟨#[Array.replicate 877 0, Array.replicate 40 0, Array.replicate 108 0,
    Array.replicate 40 0, Array.replicate 40 0]⟩

def smallMatch : MatchBuffers := ⟨⟨0, 0⟩, ⟨1, 0⟩, ⟨2, 0⟩, ⟨3, 0⟩, ⟨4, 0⟩⟩

theorem matchInput_small :
    MatchInput params10 10 (List.replicate 40 84) smallMatch matchClient := by
  have hsize : matchClient.heap.blockSize 0 = 877 ∧ matchClient.heap.blockSize 1 = 40 ∧
      matchClient.heap.blockSize 2 = 108 ∧ matchClient.heap.blockSize 3 = 40 ∧
        matchClient.heap.blockSize 4 = 40 := by simp [matchClient, blockSize]
  obtain ⟨hprog, hsrc, hiblock, henc, hdec⟩ := hsize
  have hload : ∀ {b n : ℕ}, matchClient.heap.blockSize b = n →
      ∀ k < n, (matchClient.heap.load (Ptr.add ⟨b, 0⟩ k)).isSome := by
    rintro b n rfl k hk
    rw [load_isSome, Ptr.add_off, Nat.zero_add]
    exact hk
  exact {
    program_lt := by decide
    length_data := rfl
    sizes := ⟨rfl, rfl, rfl, hload hprog⟩
    src := ⟨hload hsrc, hload hiblock, disjoint_bytesFrom (by decide)⟩
    enc := ⟨hload henc, hload hiblock, disjoint_bytesFrom (by decide)⟩
    emit := ⟨hload hiblock, hload henc, disjoint_bytesFrom (by decide)⟩
    dec := ⟨hload hiblock, hload hdec, disjoint_bytesFrom (by decide)⟩
    enc_src := disjoint_bytesFrom (by decide)
    dec_src := disjoint_bytesFrom (by decide)
    src_ne := by decide
    iblock_ne := by decide
    enc_ne := by decide
    dec_ne := by decide }

/-- Ten source symbols are encoded to themselves. -/
theorem testConsistencyFor_ret_ten :
    Ends (testConsistencyFor 10 0 (List.replicate 40 84) smallMatch) matchClient
      fun err _ => err = 0 := by
  apply (testConsistencyFor_ret parametersGet_ten matchInput_small).mono
  rintro err s' rfl
  have hids : requested 0 10 = sourceIds := by decide
  rw [if_neg (by decide), hids, if_pos ⟨fullRank_sourceIds, fullRank_sourceIds⟩]

end TvRQ
