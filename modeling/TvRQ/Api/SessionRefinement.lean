/-
# Sessions refine their specification

Every call that a client is allowed to make ends, with one of the outcomes of
`Codec.Step`.  By the rules for runs the same is true of all sequences of calls.
-/

import TvRQ.Api.Session

namespace TvRQ

open Imperative Heap Finset

variable {L : Layout} {s : Client} {a : Codec} {q : Request} {cap : ℕ}

/-! ## Work memory -/

theorem rqInterInit_outcome {nK nMaxExtra : ℤ} {size : ℕ} {mem : RqWorkMem} {P : Parameters}
    (hP : parametersGet nK = .ok P) (hsize : sizeofWorkMem ≤ size) (hint : IsInt (nK + nMaxExtra))
    (hcap : cap = (size - sizeofWorkMem) / 4) (hcap_lt : cap < 2 ^ 31) :
    Ends (rqInterInit nK nMaxExtra size) mem fun ret w => w.ESIs = mem.ESIs ∧
      ret = (if P.K = -1 then rqErrEdom else if cap < nK + nMaxExtra then rqErrEnomem else 0) ∧
        (ret = 0 → w = ⟨P, cap, 0, mem.ESIs⟩) := by
  have hwrap : wrap32 cap = cap := wrap32_of_isInt ⟨by omega, by omega⟩
  unfold rqInterInit
  rw [if_neg (not_lt.mpr hsize), ends_bind, ends_embed]
  refine ⟨P, hP, ?_⟩
  rw [ends_bind, ends_modify]
  by_cases hK : P.K = -1
  · rw [if_pos hK, if_pos hK, ends_pure]
    exact ⟨rfl, rfl, fun h => by cases h⟩
  · rw [if_neg hK, if_neg hK, ends_bind, ends_ensure]
    refine ⟨(parametersGet_row hP hK).2.1, ?_⟩
    rw [ends_bind, ends_modify, ← hcap, hwrap, wrap32_of_isInt hint]
    split_ifs with hsmall
    · rw [ends_pure]
      exact ⟨rfl, rfl, fun h => by cases h⟩
    · rw [ends_bind, ends_modify, ends_pure]
      exact ⟨rfl, rfl, fun _ => rfl⟩

theorem rqOutInit_outcome {nK : ℤ} {size : ℕ} {mem : RqWorkMem} {P : Parameters}
    (hP : parametersGet nK = .ok P) (hsize : sizeofWorkMem ≤ size)
    (hcap : cap = (size - sizeofWorkMem) / 4) (hcap_lt : cap < 2 ^ 31) :
    Ends (rqOutInit nK size) mem fun ret w => w.ESIs = mem.ESIs ∧
      ret = (if P.K = -1 then rqErrEdom else 0) ∧ (ret = 0 → w = ⟨P, cap, 0, mem.ESIs⟩) := by
  have hwrap : wrap32 cap = cap := wrap32_of_isInt ⟨by omega, by omega⟩
  unfold rqOutInit
  rw [if_neg (not_lt.mpr hsize), ends_bind, ends_embed]
  refine ⟨P, hP, ?_⟩
  rw [ends_bind, ends_modify]
  by_cases hK : P.K = -1
  · rw [if_pos hK, if_pos hK, ends_pure]
    exact ⟨rfl, rfl, fun h => by cases h⟩
  · rw [if_neg hK, if_neg hK, ends_bind, ends_modify, ends_pure, ← hcap, hwrap]
    exact ⟨rfl, rfl, fun _ => rfl⟩

/-- Memory that was just initialised has no IDs in it. -/
theorem workHolds_init {ESIs : Array UInt32} (hids : q.ids = []) (hsize : ESIs.size = cap) :
    WorkHolds cap ⟨q.params, cap, 0, ESIs⟩ q where
  valid := ⟨rfl, hsize, le_rfl, Int.natCast_nonneg cap⟩
  params_eq := rfl
  ids_eq := by
    rw [hids]
    rfl

theorem WorkHolds.nESI_eq {w : RqWorkMem} (hw : WorkHolds cap w q) : w.nESI = q.ids.length := by
  rw [← hw.valid.length_ids, hw.ids_eq]

theorem WorkHolds.length_le {w : RqWorkMem} (hw : WorkHolds cap w q) : q.ids.length ≤ cap := by
  have hle := hw.valid.nESI_le
  rw [hw.nESI_eq] at hle
  exact_mod_cast hle

theorem WorkHolds.addIds_ends {w : RqWorkMem} (hw : WorkHolds cap w q) (hcap : cap < 2 ^ 31)
    {nBeg nAdd : ℤ} (hadd : q.CanAdd nAdd) :
    Ends (addIds nBeg nAdd) w fun ret w' =>
      ret = q.addRet cap nAdd ∧ WorkHolds cap w' (q.add cap nBeg nAdd) := by
  obtain ⟨hlo, hsum⟩ := hadd
  rw [← hw.nESI_eq] at hsum
  apply (TvRQ.addIds_ends hw.valid hcap nBeg hlo hsum).mono
  rintro ret w' ⟨hvalid, hparams, hids, hret⟩
  refine ⟨?_, hvalid, hparams.trans hw.params_eq, ?_⟩
  · rw [hret, hw.nESI_eq]
    rfl
  · rw [hids, hw.ids_eq]
    rfl

/-! ## Bytes on the heap -/

namespace Layout

variable {h h' : Heap UInt8} {p : Ptr} {n w : ℕ} {A : Table GF256}

theorem bytes_of_ne (hne : p.blk ≠ L.interProgMem.blk) : L.bytes h p = h.load p := if_neg hne

theorem blk_ne_of_isSome (hp : (L.bytes h p).isSome) : p.blk ≠ L.interProgMem.blk := by
  intro heq
  rw [bytes, if_pos heq] at hp
  cases hp

/-- Bytes that are not program memory lie apart from it. -/
theorem blk_ne_of_allocated (hp : (L.bytes h).Allocated p (n * w)) :
    ∀ r ∈ (M256v.make n w p).cells, r.blk ≠ L.interProgMem.blk := by
  intro r hr
  obtain ⟨k, hk, rfl⟩ := cells_make_subset le_rfl hr
  exact blk_ne_of_isSome (hp k hk)

theorem shows_iff_holds (hp : ∀ r ∈ (M256v.make n w p).cells, r.blk ≠ L.interProgMem.blk) :
    (L.bytes h).Shows p n w A ↔ (M256v.make n w p).Holds h A := by
  have hcell : ∀ r < n, ∀ c < w, L.bytes h (p.add (r * w + c)) = h.load (p.add (r * w + c)) :=
    fun r hr c hc => bytes_of_ne (hp _ ⟨r, hr, c, hc, rfl⟩)
  constructor
  · intro hA r hr c hc
    exact (hcell r hr c hc).symm.trans (hA r hr c hc)
  · intro hA r hr c hc
    exact (hcell r hr c hc).trans (hA r hr c hc)

theorem exists_holds (hp : (L.bytes h).Allocated p (n * w)) :
    ∃ A, (M256v.make n w p).Holds h A := by
  refine ⟨(M256v.make n w p).contents h, fun r hr c hc => ?_⟩
  have hcell := M256v.cell_mem_cells (M := M256v.make n w p) hr hc
  obtain ⟨k, hk, heq⟩ := cells_make_subset le_rfl hcell
  have hsome := hp k hk
  rw [← heq, bytes_of_ne (blk_ne_of_allocated hp _ hcell)] at hsome
  obtain ⟨v, hv⟩ := Option.isSome_iff_exists.mp hsome
  rw [hv, M256v.contents, hv]
  rfl

/-- The bytes after a table was written apart from the program. -/
theorem replaced (hp : ∀ r ∈ (M256v.make n w p).cells, r.blk ≠ L.interProgMem.blk)
    (hA : (M256v.make n w p).Holds h' A) (hagree : AgreeOff (M256v.make n w p).cells h h') :
    (L.bytes h).Replaced p n w A (L.bytes h') where
  shows := (shows_iff_holds hp).mpr hA
  frame := fun r hr => by
    have hload : h'.load r = h.load r := hagree r fun hmem => hr (cells_make_subset le_rfl hmem)
    unfold bytes
    rw [hload]

end Layout

/-- Writing apart from the program changes the bytes only. -/
theorem Related.write (hR : Related L s a) {cells : Set Ptr} {h' : Heap UInt8}
    (hcells : ∀ p ∈ cells, p.blk ≠ L.interProgMem.blk) (hagree : AgreeOff cells s.heap h') :
    Related L { s with heap := h' } { a with bytes := L.bytes h' } := by
  have hload : ∀ p : Ptr, p.blk = L.interProgMem.blk → h'.load p = s.heap.load p :=
    fun p hp => hagree p fun hmem => hcells p hmem hp
  exact { hR with
    interProg_room := fun k hk => by
      have hroom := hR.interProg_room k hk
      rwa [← hload (L.interProgMem.add k) rfl] at hroom
    interProg := fun q hq => by
      obtain ⟨p, t, hp, hprog⟩ := hR.interProg q hq
      refine ⟨p, t, hp, hprog.of_load ?_⟩
      rintro r ⟨i, _, c, _, rfl⟩
      exact hload _ rfl
    bytes := rfl }

/-! ## Calls -/

/-- What has to be shown of a call. -/
def CallRefines (L : Layout) (s : Client) (a : Codec) (c : Call) : Prop :=
  Ends (c.run L.toSizes) s fun ret s' => ∃ b, Codec.Step L a c ret b ∧ Related L s' b

theorem interInit_refines (hR : Related L s a) {nK nMaxExtra : ℤ}
    (hint : IsInt (nK + nMaxExtra)) : CallRefines L s a (.interInit nK nMaxExtra) := by
  obtain ⟨P, hP⟩ := exists_parametersGet nK
  have hcap := L.interCap_lt
  rw [CallRefines, Call.run, Client.onInterWork, ends_within]
  by_cases hroom : L.interWorkSize < sizeofWorkMem
  · unfold rqInterInit
    rw [if_pos hroom, ends_pure]
    exact ⟨a, .interInit_noroom hroom, hR⟩
  have hroom := not_lt.mp hroom
  apply (rqInterInit_outcome hP hroom hint rfl (hcap.trans (by decide))).mono
  rintro ret w ⟨hsize, hret, hzero⟩
  have hsize' : w.ESIs.size = L.interCap := by rw [hsize, hR.interWork_size]
  have hnone : Related L { s with interWork := w } { a with interWork := none } :=
    { hR with
      interWork_size := hsize'
      interWork := fun q hq => by cases hq }
  split_ifs at hret with hK hsmall
  · rw [hret]
    exact ⟨_, .interInit_unsupported hroom hP hK, hnone⟩
  · rw [hret]
    exact ⟨_, .interInit_small hroom hP hK hsmall, hnone⟩
  · rw [hret]
    have hKeq : P.K = nK := (parametersGet_row hP hK).2.1
    let q : Request := ⟨P, [], hKeq.symm ▸ hP, hK⟩
    refine ⟨_, .interInit (q := q) hroom hP rfl (not_lt.mp hsmall), { hR with
      interWork_size := hsize'
      interWork := fun q' hq' => ?_ }⟩
    cases hq'
    rw [hzero hret]
    exact workHolds_init (q := q) rfl hR.interWork_size

theorem outInit_refines (hR : Related L s a) (nK : ℤ) : CallRefines L s a (.outInit nK) := by
  obtain ⟨P, hP⟩ := exists_parametersGet nK
  have hcap := L.outCap_lt
  rw [CallRefines, Call.run, Client.onOutWork, ends_within]
  by_cases hroom : L.outWorkSize < sizeofWorkMem
  · unfold rqOutInit
    rw [if_pos hroom, ends_pure]
    exact ⟨a, .outInit_noroom hroom, hR⟩
  have hroom := not_lt.mp hroom
  apply (rqOutInit_outcome hP hroom rfl hcap).mono
  rintro ret w ⟨hsize, hret, hzero⟩
  have hsize' : w.ESIs.size = L.outCap := by rw [hsize, hR.outWork_size]
  split_ifs at hret with hK
  · rw [hret]
    exact ⟨_, .outInit_unsupported hroom hP hK, { hR with
      outWork_size := hsize'
      outWork := fun q hq => by cases hq }⟩
  · rw [hret]
    have hKeq : P.K = nK := (parametersGet_row hP hK).2.1
    let q : Request := ⟨P, [], hKeq.symm ▸ hP, hK⟩
    refine ⟨_, .outInit (q := q) hroom hP rfl, { hR with
      outWork_size := hsize'
      outWork := fun q' hq' => ?_ }⟩
    cases hq'
    rw [hzero hret]
    exact workHolds_init (q := q) rfl hR.outWork_size

theorem interAddIds_refines (hR : Related L s a) (hwork : a.interWork = some q) {nBeg nAdd : ℤ}
    (hadd : q.CanAdd nAdd) : CallRefines L s a (.interAddIds nBeg nAdd) := by
  rw [CallRefines, Call.run, Client.onInterWork, ends_within]
  apply ((hR.interWork q hwork).addIds_ends (L.interCap_lt.trans (by decide)) hadd).mono
  rintro ret w ⟨rfl, hw⟩
  refine ⟨_, .interAddIds hwork, { hR with
    interWork_size := hw.valid.size_eq
    interWork := fun q' hq' => ?_ }⟩
  cases hq'
  exact hw

theorem outAddIds_refines (hR : Related L s a) (hwork : a.outWork = some q) {nBeg nAdd : ℤ}
    (hadd : q.CanAdd nAdd) : CallRefines L s a (.outAddIds nBeg nAdd) := by
  rw [CallRefines, Call.run, Client.onOutWork, ends_within]
  apply ((hR.outWork q hwork).addIds_ends L.outCap_lt hadd).mono
  rintro ret w ⟨rfl, hw⟩
  refine ⟨_, .outAddIds hwork, { hR with
    outWork_size := hw.valid.size_eq
    outWork := fun q' hq' => ?_ }⟩
  cases hq'
  exact hw

/-- The size of the program that the compiler asks for. -/
theorem WorkHolds.interMemNeeded_eq {w : RqWorkMem} (hw : WorkHolds cap w q)
    (hcap : cap < 2 ^ 30) : (interMemNeeded w : ℤ) = q.interSize := by
  have hneeded := hw.valid.interMemNeeded_eq hcap (hw.params_eq ▸ q.valid)
  rw [hneeded, hw.nESI_eq, hw.params_eq, Request.interSize]
  congr 1

/-- What the compiler gets. -/
theorem Related.compileInput (hR : Related L s a) (hwork : a.interWork = some q)
    (hsize : interMemNeeded s.interWork ≤ L.interProgSize) :
    CompileInput q.params q.ids s.interWork L.interProgMem L.interProgSize s.heap := by
  have hw := hR.interWork q hwork
  have hpos : 0 < interMemNeeded s.interWork := by
    have hneeded := hw.interMemNeeded_eq L.interCap_lt
    have hrows : (0 : ℤ) ≤ (constraintRows q.params q.ids : ℤ) * q.params.L := by positivity
    unfold Request.interSize progSize sizeofInterProgram at hneeded
    omega
  -- The last byte of the program memory is there.
  have hlast := load_isSome.mp (hR.interProg_room (L.interProgSize - 1) (by omega))
  rw [Ptr.add_blk, Ptr.add_off] at hlast
  have hroom : L.interProgMem.off + L.interProgSize ≤ s.heap.blockSize L.interProgMem.blk := by
    omega
  have hin := compileInput_of_valid hw.valid L.interCap_lt (hw.params_eq ▸ q.valid) hsize hroom
  rwa [hw.params_eq, hw.ids_eq] at hin

/-- Compiling changes nothing but program memory. -/
theorem bytes_eq_of_compile {P : Parameters} {ids : List UInt32} {h h' : Heap UInt8}
    (hagree : AgreeOff (luView P ids L.interProgMem).cells h h') : L.bytes h' = L.bytes h := by
  funext p
  unfold Layout.bytes
  split_ifs with hblk
  · rfl
  · refine hagree p ?_
    rintro ⟨r, _, c, _, rfl⟩
    exact hblk rfl

/-- Program memory stays as large as it is. -/
theorem room_of_compile {P : Parameters} {ids : List UInt32} {h h' : Heap UInt8}
    {A : Table GF256} (hholds : (luView P ids L.interProgMem).Holds h' A)
    (hagree : AgreeOff (luView P ids L.interProgMem).cells h h')
    (hroom : ∀ k < L.interProgSize, (h.load (L.interProgMem.add k)).isSome) :
    ∀ k < L.interProgSize, (h'.load (L.interProgMem.add k)).isSome := by
  intro k hk
  by_cases hmem : L.interProgMem.add k ∈ (luView P ids L.interProgMem).cells
  · exact HeapView.allocated (M := luView P ids L.interProgMem) hholds hmem
  · rw [hagree _ hmem]
    exact hroom k hk

theorem interCompile_refines (hR : Related L s a) (hwork : a.interWork = some q) :
    CallRefines L s a .interCompile := by
  have hw := hR.interWork q hwork
  have hneeded := hw.interMemNeeded_eq L.interCap_lt
  rw [CallRefines, Call.run, ends_bind, ends_get, ends_bind, Client.onHeap, ends_within]
  by_cases hsize : L.interProgSize < interMemNeeded s.interWork
  · apply (rqInterCompile_small hsize L.interProgMem s.heap).mono
    rintro out h' ⟨rfl, rfl⟩
    exact ends_bind.mpr ⟨_, _, rfl, _, _, rfl, a, .interCompile_small hwork (by omega), hR⟩
  · have hin := hR.compileInput hwork (not_lt.mp hsize)
    apply (rqInterCompile_ends q.valid hin).mono
    rintro out h' ⟨r, t, prog, rfl, hprog, hagree⟩
    obtain ⟨p, hfinished⟩ := hprog.run.finished
    have hle : r ≤ q.params.L := hfinished.rank_le_cols
    have hbytes : a.bytes = L.bytes h' := by rw [hR.bytes, bytes_eq_of_compile hagree]
    have hroom := room_of_compile hprog.holds hagree hR.interProg_room
    rw [ends_bind, ends_modify, ends_pure]
    by_cases hrank : r < q.params.L
    · have hfull : ¬ FullRank q.params q.ids := by
        rw [FullRank, hfinished.rank_eq]
        omega
      rw [if_pos hrank]
      exact ⟨_, .interCompile_insuff hwork (by omega) hfull, { hR with
        interProg_room := hroom
        interProg := fun q' hq' => by cases hq'
        bytes := hbytes }⟩
    · have hr : r = q.params.L := by omega
      subst hr
      rw [if_neg hrank]
      refine ⟨_, .interCompile hwork (by omega) hfinished.rank_eq, { hR with
        interProg_room := hroom
        interProg := fun q' hq' => ?_
        bytes := hbytes }⟩
      cases hq'
      exact ⟨prog, t, rfl, hprog⟩

/-- The first IDs in an array. -/
theorem storesIds_of_take {ESIs : Array UInt32} {ids : List UInt32}
    (h : ESIs.toList.take ids.length = ids) : StoresIds ESIs ids.length ids where
  length_eq := rfl
  get_eq := fun i hi => by
    have hget : (ESIs.toList.take ids.length)[i]? = ids[i]? := by rw [h]
    rw [List.getElem?_take_of_lt hi, Array.getElem?_toList] at hget
    rw [hget, List.getD_eq_getElem?_getD, List.getElem?_eq_getElem hi]
    rfl

theorem rqOutCompile_outcome {w : RqWorkMem} (hw : WorkHolds cap w q) (hcap : cap < 2 ^ 31)
    {size : ℕ} {mem : Array UInt32} (hsize : q.outSize ≤ size) (hmem : mem.size = size / 4) :
    Ends (rqOutCompile w size) mem fun ret mem' => mem'.size = mem.size ∧
      if q.outSize < size then ret = rqErrEnomem ∧ mem' = mem
      else ret = 0 ∧ OutProgHolds (.ofWords mem') q := by
  have hnESI := hw.nESI_eq
  have hlen := hw.length_le
  have hwords := length_words w
  have hcompilable : w.Compilable := {
    params_eq := by
      rw [hw.params_eq]
      exact q.params_eq
    K_ne := by
      rw [hw.params_eq]
      exact q.K_ne
    nESI_nonneg := hw.valid.nESI_nonneg
    nESI_lt := by omega
    nESI_le := by
      rw [hw.valid.size_eq]
      exact hw.valid.nESI_le }
  have hsz : sizeOf64 (sizeofOutProgram + w.nESI * 4) = 52 + 4 * q.ids.length := by
    rw [hnESI]
    unfold sizeOf64 sizeofOutProgram
    omega
  unfold Request.outSize sizeofOutProgram at hsize ⊢
  unfold rqOutCompile
  rw [hsz]
  dsimp only
  have hsize_eq := hw.valid.size_eq
  split_ifs with hlarge hlarge' hlarge'
  · exact ends_pure.mpr ⟨rfl, rfl, rfl⟩
  · omega
  · omega
  · refine (memcpyWords_ends (by omega) (by omega)).bind fun _ mem' hpost => ?_
    obtain ⟨hsize', hget⟩ := hpost
    have hsame : SameProgram w mem' := sameProgram_of_words hcompilable fun k hk => by
      rw [hget k, if_pos (by omega)]
    refine ends_pure.mpr ⟨hsize', rfl, hsame.params_eq.trans hw.params_eq,
      hsame.nESI_eq.trans hnESI, storesIds_of_take ?_⟩
    have hids := hsame.ids_eq
    rwa [hnESI, Int.toNat_natCast, hw.ids_eq] at hids

theorem outCompile_refines (hR : Related L s a) (hwork : a.outWork = some q)
    (hsize : q.outSize ≤ L.outProgSize) : CallRefines L s a .outCompile := by
  rw [CallRefines, Call.run, ends_bind, ends_get, Client.onOutProgMem, ends_within]
  apply (rqOutCompile_outcome (hR.outWork q hwork) L.outCap_lt hsize hR.outProg_size).mono
  rintro ret mem ⟨hmem, hpost⟩
  split_ifs at hpost with hlarge
  · obtain ⟨rfl, rfl⟩ := hpost
    exact ⟨a, .outCompile_large hwork hlarge, hR⟩
  · obtain ⟨rfl, hprog⟩ := hpost
    refine ⟨_, .outCompile hwork (by omega), { hR with
      outProg_size := by
        rw [← hR.outProg_size]
        exact hmem
      outProg := fun q' hq' => ?_ }⟩
    cases hq'
    exact hprog

/-- Buffers that lie apart are views that lie apart. -/
theorem SymbolBuffers.disjoint {b : Bytes} {w n m : ℕ} {src dst : Ptr}
    (hbuf : SymbolBuffers b w src n dst m) :
    Disjoint (M256v.make m w dst).cells (M256v.make n w src).cells :=
  (hbuf.apart.mono (cells_make_subset le_rfl) (cells_make_subset le_rfl))

theorem interExecute_refines (hR : Related L s a) (hprog : a.interProg = some q) {w inSize : ℕ}
    {inMem interMem : Ptr} {interSize : ℕ} (hsymSize : w < 2 ^ 31)
    (hbuf : q.params.L * w ≤ interSize →
      SymbolBuffers a.bytes w inMem q.ids.length interMem q.params.L) :
    CallRefines L s a (.interExecute w inMem inSize interMem interSize) := by
  obtain ⟨p, t, hsome, hcompiled⟩ := hR.interProg q hprog
  have hcols : p.LU.nCol = q.params.L := by
    rw [hcompiled.LU_eq]
    rfl
  rw [CallRefines, Call.run, ends_bind, ends_get, hsome]
  dsimp only
  rw [Client.onHeap, ends_within]
  by_cases hsize : interSize < q.params.L * w
  · unfold rqInterExecute
    rw [hcols, if_pos hsize, ends_pure]
    exact ⟨a, .interExecute_small hprog hsize, hR⟩
  · have hbuf := hbuf (not_lt.mp hsize)
    have hin := hbuf.src_allocated
    have hinter := hbuf.dst_allocated
    rw [hR.bytes] at hin hinter
    obtain ⟨Y, hY⟩ := Layout.exists_holds hin
    obtain ⟨B, hB⟩ := Layout.exists_holds hinter
    have hne := Layout.blk_ne_of_allocated hinter
    have hapart : Disjoint (M256v.make q.params.L w interMem).cells
        (luView q.params q.ids L.interProgMem).cells := by
      rw [Set.disjoint_left]
      rintro r hr ⟨i, _, c, _, rfl⟩
      exact hne _ hr rfl
    apply (rqInterExecute_pivots q.valid hcompiled hsymSize (not_lt.mp hsize) hB
      (fun _ _ hlt => hY.row hlt) hbuf.disjoint hapart inSize).mono
    rintro ret h' ⟨rfl, C, hC, hholds, hagree⟩
    refine ⟨_, .interExecute hprog (not_lt.mp hsize) ?_ (hC.determines hcompiled.run) ?_,
      hR.write hne hagree⟩
    · rw [hR.bytes]
      exact (Layout.shows_iff_holds (Layout.blk_ne_of_allocated hin)).mpr hY
    · rw [hR.bytes]
      exact Layout.replaced hne hholds hagree

theorem outExecute_refines (hR : Related L s a) (hprog : a.outProg = some q) {w : ℕ}
    {interMem outMem : Ptr} {outSize : ℕ} (hsymSize : w < 2 ^ 31)
    (hbuf : q.ids.length * w ≤ outSize →
      SymbolBuffers a.bytes w interMem q.params.L outMem q.ids.length) :
    CallRefines L s a (.outExecute w interMem outMem outSize) := by
  have hp := hR.outProg q hprog
  rw [CallRefines, Call.run, ends_bind, ends_get, Client.onHeap, ends_within]
  by_cases hsize : outSize < q.ids.length * w
  · unfold rqOutExecute
    rw [hp.nESI_eq, Int.toNat_natCast, if_pos hsize, ends_pure]
    exact ⟨a, .outExecute_small hprog hsize, hR⟩
  · have hbuf := hbuf (not_lt.mp hsize)
    have hinter := hbuf.src_allocated
    have hout := hbuf.dst_allocated
    rw [hR.bytes] at hinter hout
    obtain ⟨C, hC⟩ := Layout.exists_holds hinter
    obtain ⟨B, hB⟩ := Layout.exists_holds hout
    have hne := Layout.blk_ne_of_allocated hout
    apply (rqOutExecute_ends q.valid hp.params_eq hp.nESI_eq hp.ids_eq hsymSize
      (not_lt.mp hsize) hC hB hbuf.disjoint).mono
    rintro ret h' ⟨rfl, hholds, hagree⟩
    refine ⟨_, .outExecute (C := C) hprog (not_lt.mp hsize) ?_ ?_, hR.write hne hagree⟩
    · rw [hR.bytes]
      exact (Layout.shows_iff_holds (Layout.blk_ne_of_allocated hinter)).mpr hC
    · rw [hR.bytes]
      exact Layout.replaced hne hholds hagree

theorem write_refines (hR : Related L s a) {p : Ptr} {v : UInt8} (hp : (a.bytes p).isSome) :
    CallRefines L s a (.write p v) := by
  rw [hR.bytes] at hp
  have hne := Layout.blk_ne_of_isSome hp
  have hsome : (s.heap.load p).isSome := by rwa [Layout.bytes_of_ne hne] at hp
  rw [CallRefines, Call.run, Client.onHeap, ends_within, ends_bind, ends_store, ends_pure]
  have hbytes : Function.update a.bytes p (some v) = L.bytes (s.heap.store p v) := by
    funext r
    by_cases hr : r = p
    · subst hr
      rw [Function.update_self, Layout.bytes_of_ne hne, load_store_self hsome]
    · rw [Function.update_of_ne hr, hR.bytes]
      unfold Layout.bytes
      rw [load_store_of_ne hr]
  have hcells : ∀ r ∈ ({p} : Set Ptr), r.blk ≠ L.interProgMem.blk := by
    rintro r rfl
    exact hne
  have hwrite := hR.write hcells (agreeOff_store (Set.mem_singleton p) s.heap v)
  exact ⟨hsome, _, .write, hbytes ▸ hwrite⟩

/-! ## Runs -/

/-- A call that is allowed is one of the specification. -/
theorem call_refines (L : Layout) :
    Refines (Call.run L.toSizes) (Codec.Step L) (Codec.Allowed L) (Related L) := by
  intro s a c hR hallowed
  cases c with
  | interInit nK nMaxExtra => exact interInit_refines hR hallowed
  | interAddIds nBeg nAdd =>
      obtain ⟨q, hwork, hadd⟩ := hallowed
      exact interAddIds_refines hR hwork hadd
  | interCompile =>
      obtain ⟨q, hwork⟩ := hallowed
      exact interCompile_refines hR hwork
  | interExecute w inMem inSize interMem interSize =>
      obtain ⟨hsymSize, q, hprog, hbuf⟩ := hallowed
      exact interExecute_refines hR hprog hsymSize hbuf
  | outInit nK => exact outInit_refines hR nK
  | outAddIds nBeg nAdd =>
      obtain ⟨q, hwork, hadd⟩ := hallowed
      exact outAddIds_refines hR hwork hadd
  | outCompile =>
      obtain ⟨q, hwork, hsize⟩ := hallowed
      exact outCompile_refines hR hwork hsize
  | outExecute w interMem outMem outSize =>
      obtain ⟨hsymSize, q, hprog, hbuf⟩ := hallowed
      exact outExecute_refines hR hprog hsymSize hbuf
  | write p v => exact write_refines hR hallowed

end TvRQ
