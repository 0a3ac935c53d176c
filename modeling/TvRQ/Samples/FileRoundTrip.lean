/-
# The round trip of a file

`transcode` turns the complete blocks of a file into blocks of other symbols.
Transcoding back gives the file up to the end of its last complete block.  What
comes behind that is lost, and the first call reports it.
-/

import TvRQ.Lib.Blocks
import TvRQ.Samples.Programs

namespace TvRQ

open Imperative Heap Finset Blocks

/-! ## Blocks of symbols -/

/-- The symbols in a block of a file. -/
def blockTable (w : ℕ) (b : List UInt8) : Table GF256 := M256v.rowMajor w b.toArray

/-- The block of a file with the first `n` rows of a table. -/
def blockBytes (n w : ℕ) (A : Table GF256) : List UInt8 := (M256v.tableBytes A n w).toList

/-- The second block has the symbols of the IDs `F` that come from the symbols of
the IDs `E` in the first one. -/
def Encodes (P : Parameters) (E F : List UInt32) (w : ℕ) (b b' : List UInt8) : Prop :=
  ∃ C, Determines P E w (blockTable w b) C ∧ b' = blockBytes F.length w (symbolTable P F C)

section Block

variable {P : Parameters} {E F : List UInt32} {n w : ℕ} {A B : Table GF256} {b b' c : List UInt8}

@[simp]
theorem length_blockBytes : (blockBytes n w A).length = n * w := by
  simp [blockBytes, M256v.tableBytes]

theorem getElem?_blockBytes {k : ℕ} (hk : k < n * w) :
    (blockBytes n w A)[k]? = some (A (k / w) (k % w)).byte := by
  simp [blockBytes, M256v.tableBytes, hk]

/-- The position of an entry in its block. -/
theorem entry_lt {r i : ℕ} (hr : r < n) (hi : i < w) : r * w + i < n * w := by
  have hrow : (r + 1) * w ≤ n * w := Nat.mul_le_mul_right w hr
  rw [Nat.add_mul] at hrow
  omega

theorem entry_div {r i : ℕ} (hi : i < w) : (r * w + i) / w = r := by
  rw [Nat.mul_comm, Nat.mul_add_div (by omega), Nat.div_eq_of_lt hi, Nat.add_zero]

theorem entry_mod {r i : ℕ} (hi : i < w) : (r * w + i) % w = i := by
  rw [Nat.mul_comm, Nat.mul_add_mod, Nat.mod_eq_of_lt hi]

theorem blockTable_eq {r i : ℕ} {v : UInt8} (hv : b[r * w + i]? = some v) :
    blockTable w b r i = ⟨v⟩ := by
  simp [blockTable, M256v.rowMajor, Array.getD_eq_getD_getElem?, hv]

theorem blockTable_blockBytes {r i : ℕ} (hr : r < n) (hi : i < w) :
    blockTable w (blockBytes n w A) r i = A r i := by
  rw [blockTable_eq (getElem?_blockBytes (entry_lt hr hi)), entry_div hi, entry_mod hi]

theorem blockBytes_congr (h : ∀ r < n, ∀ i < w, A r i = B r i) :
    blockBytes n w A = blockBytes n w B := by
  apply List.ext_getElem?
  intro k
  by_cases hk : k < n * w
  · have hw : 0 < w := Nat.pos_of_mul_pos_left (Nat.zero_lt_of_lt hk)
    have hr : k / w < n := Nat.div_lt_of_lt_mul (by rwa [Nat.mul_comm])
    rw [getElem?_blockBytes hk, getElem?_blockBytes hk, h _ hr _ (Nat.mod_lt k hw)]
  · rw [List.getElem?_eq_none (by simpa using hk), List.getElem?_eq_none (by simpa using hk)]

theorem blockBytes_blockTable (hb : b.length = n * w) : blockBytes n w (blockTable w b) = b := by
  apply List.ext_getElem?
  intro k
  by_cases hk : k < n * w
  · have hget : b[k / w * w + k % w]? = some b[k] := by
      rw [Nat.div_add_mod', List.getElem?_eq_getElem]
    rw [getElem?_blockBytes hk, blockTable_eq hget, List.getElem?_eq_getElem]
  · rw [List.getElem?_eq_none (by simpa using hk), List.getElem?_eq_none (by omega)]

theorem Encodes.length_eq (h : Encodes P E F w b b') : b'.length = F.length * w := by
  obtain ⟨C, -, rfl⟩ := h
  exact length_blockBytes

/-- From the source symbols and back. -/
theorem Encodes.inverse (hP : P.Valid) (hE : (E.length : ℤ) = P.K) (hb : b.length = E.length * w)
    (h : Encodes P E F w b b') (h' : Encodes P F E w b' c) : c = b := by
  obtain ⟨C, hC, rfl⟩ := h
  obtain ⟨C', hC', rfl⟩ := h'
  have hsolves : Solves P E w (blockTable w b) C := hC.solves (constraintRows_eq hP hE)
  have hback : Solves P F w (blockTable w (blockBytes F.length w (symbolTable P F C))) C :=
    (hsolves.symbolTable F).congr fun r hr i hi => (blockTable_blockBytes hr hi).symm
  have hsame := hC'.unique C hback
  have hD : ∀ r < E.length, ∀ i < w, symbolTable P E C' r i = blockTable w b r i := by
    intro r hr i hi
    rw [← hsolves.symbolTable_eq hr hi]
    exact (symbolTable_congr fun j hj => hsame j hj i hi).symm
  rw [blockBytes_congr hD, blockBytes_blockTable hb]

end Block

/-! ## Bytes in order -/

section Bytes

variable {L : Layout} {s : Client} {a : Codec} {h : Heap UInt8} {m m' : Bytes} {p : Ptr}
  {b vs : List UInt8} {n w : ℕ} {A : Table GF256}

/-- The bytes from `p` on are those of a list. -/
def Bytes.Stores (m : Bytes) (p : Ptr) (b : List UInt8) : Prop :=
  ∀ k < b.length, m (p.add k) = b[k]?

theorem Bytes.Stores.shows (hb : m.Stores p b) (hlen : b.length = n * w) :
    m.Shows p n w (blockTable w b) := by
  intro r hr c hc
  have hlt : r * w + c < b.length := hlen ▸ entry_lt hr hc
  rw [hb _ hlt, blockTable_eq (List.getElem?_eq_getElem hlt), List.getElem?_eq_getElem hlt]

theorem Bytes.Shows.stores (hA : m.Shows p n w A) : m.Stores p (blockBytes n w A) := by
  intro k hk
  rw [length_blockBytes] at hk
  have hw : 0 < w := Nat.pos_of_mul_pos_left (Nat.zero_lt_of_lt hk)
  have hr : k / w < n := Nat.div_lt_of_lt_mul (by rwa [Nat.mul_comm])
  rw [getElem?_blockBytes hk, ← hA _ hr _ (Nat.mod_lt k hw), Nat.div_add_mod']

/-- From `m` to `m'` the bytes of a list have been written to `p` and nothing else. -/
structure Bytes.Written (p : Ptr) (vs : List UInt8) (m m' : Bytes) : Prop where
  stores : m'.Stores p vs
  frame : ∀ q ∉ bytesFrom p vs.length, m' q = m q

theorem Bytes.Written.isSome (h : Bytes.Written p vs m m') {q : Ptr} (hq : (m q).isSome) :
    (m' q).isSome := by
  by_cases hmem : q ∈ bytesFrom p vs.length
  · obtain ⟨k, hk, rfl⟩ := hmem
    rw [h.stores k hk, List.getElem?_eq_getElem hk]
    rfl
  · rwa [h.frame q hmem]

/-- Writing one byte after the other. -/
theorem writeBytes_ends (hR : Related L s a) (hp : a.bytes.Allocated p vs.length) :
    Ends (writeBytes L.toSizes p vs) s fun _ s' =>
      ∃ m, Bytes.Written p vs a.bytes m ∧ Related L s' { a with bytes := m } := by
  induction vs generalizing p s a with
  | nil =>
      have hnone : Bytes.Stores a.bytes p [] := fun k hk => absurd hk (Nat.not_lt_zero k)
      exact ends_pure.mpr ⟨a.bytes, ⟨hnone, fun _ _ => rfl⟩, hR⟩
  | cons v vs ih =>
      have hfirst : (a.bytes p).isSome := hp 0 (Nat.succ_pos _)
      apply (hR.write_ends hfirst v).bind
      intro _ s₁ hR₁
      have hrest : Bytes.Allocated (Function.update a.bytes p (some v)) (p.add 1) vs.length := by
        intro k hk
        have hne : (p.add 1).add k ≠ p := by
          rw [Ptr.add_add, Ne, Ptr.ext_iff', Ptr.add_off]
          omega
        rw [Function.update_of_ne hne, Ptr.add_add, Nat.add_comm]
        exact hp (k + 1) (Nat.succ_lt_succ hk)
      apply (ih hR₁ hrest).mono
      rintro _ s₂ ⟨m, hm, hR₂⟩
      refine ⟨m, ⟨fun k hk => ?_, fun q hq => ?_⟩, hR₂⟩
      · cases k with
        | zero =>
            have hout : p.add 0 ∉ bytesFrom (p.add 1) vs.length := by
              rintro ⟨k, _, heq⟩
              rw [Ptr.add_add, Ptr.add_inj] at heq
              omega
            rw [hm.frame _ hout]
            exact Function.update_self _ _ _
        | succ k =>
            have hk' := hm.stores k (Nat.lt_of_succ_lt_succ hk)
            rwa [Ptr.add_add, Nat.add_comm] at hk'
      · have hne : q ≠ p := fun heq => hq ⟨0, Nat.succ_pos _, heq⟩
        have hout : q ∉ bytesFrom (p.add 1) vs.length := by
          rintro ⟨k, hk, rfl⟩
          exact hq ⟨k + 1, Nat.succ_lt_succ hk, by rw [Ptr.add_add, Nat.add_comm]⟩
        rw [hm.frame q hout]
        exact Function.update_of_ne hne _ _

/-- Reading them again. -/
theorem readBytes_ends (hb : ∀ k < b.length, h.load (p.add k) = b[k]?) :
    Ends (readBytes b.length p) h fun vs h' => vs = b ∧ h' = h := by
  induction b generalizing p with
  | nil => exact ends_pure.mpr ⟨rfl, rfl⟩
  | cons v vs ih =>
      have hrest : ∀ k < vs.length, h.load ((p.add 1).add k) = vs[k]? := by
        intro k hk
        rw [Ptr.add_add, Nat.add_comm]
        exact hb (k + 1) (Nat.succ_lt_succ hk)
      show Ends (load p >>= fun v => readBytes vs.length (p.add 1) >>= fun vs => pure (v :: vs)) h _
      rw [ends_bind, ends_load]
      refine ⟨v, hb 0 (Nat.succ_pos _), ?_⟩
      apply (ih hrest).bind
      rintro _ _ ⟨rfl, rfl⟩
      exact ends_pure.mpr ⟨rfl, rfl⟩

theorem Bytes.Stores.congr (hb : m.Stores p b) (heq : ∀ q ∈ bytesFrom p b.length, m' q = m q) :
    m'.Stores p b := by
  intro k hk
  rw [heq _ ⟨k, hk, rfl⟩]
  exact hb k hk

/-- What is stored beside the program is stored on the heap. -/
theorem Bytes.Stores.load (hb : (L.bytes h).Stores p b) :
    ∀ k < b.length, h.load (p.add k) = b[k]? := by
  intro k hk
  have hcell := hb k hk
  rwa [Layout.bytes_of_ne] at hcell
  apply Layout.blk_ne_of_isSome (h := h)
  rw [hcell, List.getElem?_eq_getElem hk]
  rfl

end Bytes

/-! ## The loop over the file -/

section Loop

variable {L : Layout} {x : FileBuffers} {s : Client} {a : Codec} {q o : Request} {w : ℕ}
  {m m' : Bytes}

theorem SymbolBuffers.mono {n k : ℕ} {src dst : Ptr} (hbuf : SymbolBuffers m w src n dst k)
    (hm : ∀ p, (m p).isSome → (m' p).isSome) : SymbolBuffers m' w src n dst k where
  src_allocated := fun i hi => hm _ (hbuf.src_allocated i hi)
  dst_allocated := fun i hi => hm _ (hbuf.dst_allocated i hi)
  apart := hbuf.apart

/-- Both programs are in memory, and beside them the three arrays. -/
structure Prepared (L : Layout) (x : FileBuffers) (w : ℕ) (q o : Request) (s : Client)
    (a : Codec) : Prop where
  related : Related L s a
  interProg_eq : a.interProg = some q
  outProg_eq : a.outProg = some o
  params_eq : o.params = q.params
  solve : SymbolBuffers a.bytes w x.src q.ids.length x.iblock q.params.L
  emit : SymbolBuffers a.bytes w x.iblock o.params.L x.enc o.ids.length

namespace Prepared

/-- A change of bytes that are there. -/
theorem with_bytes (h : Prepared L x w q o s a) {s' : Client}
    (hR : Related L s' { a with bytes := m }) (hm : ∀ p, (a.bytes p).isSome → (m p).isSome) :
    Prepared L x w q o s' { a with bytes := m } where
  related := hR
  interProg_eq := h.interProg_eq
  outProg_eq := h.outProg_eq
  params_eq := h.params_eq
  solve := h.solve.mono hm
  emit := h.emit.mono hm

theorem write_ends (h : Prepared L x w q o s a) {p : Ptr} (vs : List UInt8)
    (hp : a.bytes.Allocated p vs.length) :
    Ends (writeBytes L.toSizes p vs) s fun _ s' =>
      ∃ m, Bytes.Written p vs a.bytes m ∧ Prepared L x w q o s' { a with bytes := m } := by
  apply (writeBytes_ends h.related hp).mono
  rintro _ s' ⟨m, hm, hR⟩
  exact ⟨m, hm, h.with_bytes hR fun _ hq => hm.isSome hq⟩

/-- Turning one block. -/
theorem block_ends (h : Prepared L x w q o s a) (hsymSize : w < 2 ^ 31) {b : List UInt8}
    (hlen : b.length = q.ids.length * w) (hb : a.bytes.Stores x.src b) (inSize : ℕ) :
    Ends (runNofail (· ≠ 0)
      [Call.run L.toSizes (.interExecute w x.src inSize x.iblock (q.params.L * w)),
        do
          writeBytes L.toSizes x.enc (List.replicate (o.ids.length * w) 0)
          pure 0,
        Call.run L.toSizes (.outExecute w x.iblock x.enc (o.ids.length * w))]) s
      fun err s' => err = 0 ∧ ∃ a' b', Prepared L x w q o s' a' ∧
        Encodes q.params q.ids o.ids w b b' ∧ a'.bytes.Stores x.enc b' := by
  -- The block of symbols that are solved for stays where it is.
  let Solved : Client → Prop := fun s' => ∃ a' C, Prepared L x w q o s' a' ∧
    Determines q.params q.ids w (blockTable w b) C ∧ a'.bytes.Shows x.iblock o.params.L w C
  refine runNofail_cons_ends (I := Solved) rfl ?_ fun s₁ hsolved => ?_
  · apply (h.related.interExecute_ends h.interProg_eq hsymSize inSize h.solve
      (hb.shows hlen)).mono
    rintro err s₁ ⟨rfl, m, C, hC, hm, hR⟩
    exact ⟨rfl, _, C, h.with_bytes hR fun _ hq => hm.isSome hq, hC, h.params_eq ▸ hm.shows⟩
  refine runNofail_cons_ends (I := Solved) rfl ?_ fun s₂ hsolved => ?_
  · obtain ⟨a₁, C, h₁, hC, hshows⟩ := hsolved
    have henc := h₁.emit.dst_allocated
    apply (h₁.write_ends (List.replicate (o.ids.length * w) 0) (by simpa using henc)).bind
    rintro _ s₂ ⟨m, hm, h₂⟩
    refine ends_pure.mpr ⟨rfl, _, C, h₂, hC, hshows.congr fun r hr => hm.frame r fun hmem => ?_⟩
    rw [List.length_replicate] at hmem
    exact Set.disjoint_left.mp h₁.emit.apart hmem hr
  obtain ⟨a₂, C, h₂, hC, hshows⟩ := hsolved
  apply (h₂.related.outExecute_ends h₂.outProg_eq hsymSize h₂.emit hshows).bind
  rintro err s₃ ⟨rfl, m, hm, hR⟩
  refine ends_pure.mpr ⟨rfl, _, _, h₂.with_bytes hR fun _ hq => hm.isSome hq, ⟨C, hC, rfl⟩, ?_⟩
  exact h₂.params_eq ▸ hm.shows.stores

/-- The loop turns the complete blocks and notices whether something is left. -/
theorem loop_ends (hsymSize : w < 2 ^ 31) (hpos : 0 < q.ids.length * w) :
    ∀ fuel (rest : List UInt8) s a, rest.length < fuel → Prepared L x w q o s a →
      Ends (transcodeLoop L.toSizes x w q.ids.length q.params.L o.ids.length fuel rest) s
        fun out _ => out.1 = (if q.ids.length * w ∣ rest.length then 0 else 1) ∧
          Blockwise (Encodes q.params q.ids o.ids w) (q.ids.length * w) rest out.2 := by
  intro fuel
  induction fuel with
  | zero => exact fun _ _ _ hfuel => absurd hfuel (Nat.not_lt_zero _)
  | succ fuel ih =>
      intro rest s a hfuel h
      unfold transcodeLoop
      by_cases hempty : rest.length = 0
      · rw [if_pos hempty]
        exact ends_pure.mpr ⟨by rw [hempty, if_pos (Nat.dvd_zero _)], .done (by omega)⟩
      rw [if_neg hempty]
      have hsrc := h.solve.src_allocated
      apply (h.write_ends (List.replicate (q.ids.length * w) 0) (by simpa using hsrc)).bind
      rintro _ s₁ ⟨m₁, hm₁, h₁⟩
      have hsrc₁ : Bytes.Allocated m₁ x.src (rest.take (q.ids.length * w)).length := by
        intro k hk
        rw [List.length_take] at hk
        exact h₁.solve.src_allocated k (by omega)
      apply (h₁.write_ends _ hsrc₁).bind
      rintro _ s₂ ⟨m₂, hm₂, h₂⟩
      by_cases hlt : rest.length < q.ids.length * w
      · have hdvd : ¬ q.ids.length * w ∣ rest.length := Nat.not_dvd_of_pos_of_lt (by omega) hlt
        rw [if_pos hlt]
        exact ends_pure.mpr ⟨by rw [if_neg hdvd], .done hlt⟩
      have hlen : (rest.take (q.ids.length * w)).length = q.ids.length * w := by
        rw [List.length_take]
        omega
      have hdvd : q.ids.length * w ∣ rest.length ↔
          q.ids.length * w ∣ (rest.drop (q.ids.length * w)).length := by
        obtain ⟨d, hd⟩ := Nat.exists_eq_add_of_le (not_lt.mp hlt)
        rw [List.length_drop, hd, Nat.add_sub_cancel_left, Nat.dvd_add_right (Nat.dvd_refl _)]
      rw [if_neg hlt]
      apply (h₂.block_ends hsymSize hlen hm₂.stores _).bind
      rintro err s₃ ⟨rfl, a₃, b', h₃, hencodes, hstores⟩
      rw [if_neg (by decide), ← hencodes.length_eq, Client.onHeap]
      have hread := readBytes_ends (Bytes.Stores.load (h₃.related.bytes ▸ hstores))
      refine Ends.bind (R := fun vs s' => vs = b' ∧ s' = s₃) (ends_within.mpr (hread.mono ?_)) ?_
      · rintro _ _ ⟨rfl, rfl⟩
        exact ⟨rfl, rfl⟩
      rintro _ _ ⟨rfl, rfl⟩
      apply (ih (rest.drop (q.ids.length * w)) _ a₃ ?_ h₃).bind
      · rintro ⟨status, more⟩ s₄ ⟨hstatus, hmore⟩
        refine ends_pure.mpr ⟨?_, ?_⟩
        · simp only [hdvd]
          exact hstatus
        · have hstep := Blockwise.step hlen hencodes hmore
          rwa [List.take_append_drop] at hstep
      · rw [List.length_drop]
        omega

end Prepared

end Loop

/-! ## The whole file -/

section File

variable {K : ℤ} {P : Parameters} {E F : List UInt32} {w : ℕ} {file : List UInt8}
  {L : Layout} {x : FileBuffers} {s : Client} {a : Codec}

/-- The program for the symbols that are asked for. -/
theorem outProgram_ends (hget : parametersGet K = .ok P) (hK : P.K ≠ -1)
    (hcap : L.outCap = F.length) (hroom : sizeofWorkMem ≤ L.outWorkSize)
    (hprog : L.outProgSize = sizeofWorkMem + 4 * F.length) (hR : Related L s a) :
    Ends (runNofail (· ≠ 0) (Call.run L.toSizes (.outInit K) ::
      ((F.map fun X => Call.run L.toSizes (outAddOne X)) ++ [Call.run L.toSizes .outCompile]))) s
      fun err s' => err = 0 ∧ Related L s'
        { a with outWork := some (.ofIds hget hK F), outProg := some (.ofIds hget hK F) } := by
  refine runNofail_cons_ends rfl (hR.outInit_ends (q := .ofIds hget hK []) hget rfl hroom)
    fun s₁ hR₁ => ?_
  refine runNofail_map_ends (fun done s' =>
    Related L s' { a with outWork := some (.ofIds hget hK done) }) rfl ?_ hR₁ fun s₂ hR₂ => ?_
  · intro done X rest s₂ hids hR₂
    have hlt : done.length < L.outCap := by
      rw [hcap, hids, List.length_append, List.length_cons]
      omega
    exact hR₂.outAddOne_ends (q := .ofIds hget hK done) rfl hlt X
  · have hsize : (Request.ofIds hget hK F).outSize = L.outProgSize := by
      rw [hprog]
      unfold Request.outSize sizeofOutProgram sizeofWorkMem
      push_cast
      rfl
    refine runNofail_cons_ends rfl (hR₂.outCompile_ends (q := .ofIds hget hK F) rfl hsize) ?_
    exact fun s₃ hR₃ => ends_pure.mpr ⟨rfl, hR₃⟩

/-- The first calls lead to both programs, or the compiler asks for more IDs. -/
theorem prepare_ends (hget : parametersGet K = .ok P) (hK : P.K ≠ -1)
    (hsize : constraintRows P E * P.L < 2 ^ 31) (hF : F.length * w < 2 ^ 31)
    (hL : L.toSizes = clientSizes P E x.progMem (sizeofWorkMem + 4 * F.length))
    (hR : Related L s a) :
    Ends (prepare L.toSizes K (E.length - K) w E F) s fun err s' =>
      (FullRank P E ∧ err = 0 ∧ ∃ a', Related L s' a' ∧ a'.interProg = some (.ofIds hget hK E) ∧
        a'.outProg = some (.ofIds hget hK F) ∧ a'.bytes = a.bytes) ∨
        (¬ FullRank P E ∧ err = rqErrInsuffIds) := by
  have hcap : L.outCap = F.length := by rw [hL, outCap_clientSizes]
  have hroom : sizeofWorkMem ≤ L.outWorkSize := by
    rw [hL]
    exact Nat.le_add_right _ _
  have hprog : L.outProgSize = sizeofWorkMem + 4 * F.length := by
    rw [hL]
    rfl
  unfold prepare
  refine runNofail_cons_ends rfl (clientInit_ends hget hK hsize hL hR) fun s₁ hR₁ => ?_
  refine runNofail_cons_ends (I := fun s' =>
    Related L s' { a with interWork := some (.ofIds hget hK E) }) rfl ?_ fun s₂ hR₂ => ?_
  · refine (forM_ends (fun done s' =>
      Related L s' { a with interWork := some (.ofIds hget hK done) }) ?_ hR₁).bind
        fun _ s₂ hR₂ => ends_pure.mpr ⟨rfl, hR₂⟩
    intro done X rest s₂ hids hR₂
    apply (addOne_ends hget hK hL hids hR₂).bind
    rintro _ s₃ ⟨-, hR₃⟩
    exact ends_pure.mpr hR₃
  refine clientCompile_cons_ends hget hK hL rfl rfl hR₂ (fun hfull s₃ hR₃ => ?_)
    fun hnot _ => Or.inr ⟨hnot, rfl⟩
  have hint := intOf_natCast hF
  rw [Nat.cast_mul] at hint
  refine runNofail_cons_ends (I := fun s' => s' = s₃) rfl ?_ fun s₄ hs₄ => ?_
  · rw [ends_bind, ends_embed]
    exact ⟨_, hint, ends_pure.mpr ⟨rfl, rfl⟩⟩
  subst hs₄
  apply (outProgram_ends hget hK hcap hroom hprog hR₃).mono
  rintro err s₅ ⟨rfl, hR₅⟩
  exact Or.inl ⟨hfull, rfl, _, hR₅, rfl, rfl, rfl⟩

/-- What is there before the program is called: numbers that are of type `int`,
and memory in blocks of their own for what it reserves. -/
structure TranscodeInput (P : Parameters) (E F : List UInt32) (w : ℕ) (file : List UInt8)
    (x : FileBuffers) (s : Client) : Prop where
  symSize_pos : 1 ≤ w
  symSize_lt : w < 2 ^ 31
  file_lt : file.length < 2 ^ 31
  input_lt : E.length * w < 2 ^ 31
  output_lt : F.length * w < 2 ^ 31
  program_lt : constraintRows P E * P.L < 2 ^ 31
  sizes : (clientSizes P E x.progMem (sizeofWorkMem + 4 * F.length)).Fits s
  solve : SymbolBuffers s.heap.load w x.src E.length x.iblock P.L
  emit : SymbolBuffers s.heap.load w x.iblock P.L x.enc F.length
  src_ne : x.src.blk ≠ x.progMem.blk
  iblock_ne : x.iblock.blk ≠ x.progMem.blk
  enc_ne : x.enc.blk ≠ x.progMem.blk

/-- Arrays in other blocks than the program are beside it. -/
theorem symbolBuffers_bytes {h : Heap UInt8} {n k : ℕ} {src dst : Ptr}
    (hbuf : SymbolBuffers h.load w src n dst k) (hsrc : src.blk ≠ L.interProgMem.blk)
    (hdst : dst.blk ≠ L.interProgMem.blk) : SymbolBuffers (L.bytes h) w src n dst k where
  src_allocated := fun i hi => by
    have hne : (src.add i).blk ≠ L.interProgMem.blk := hsrc
    rw [Layout.bytes_of_ne hne]
    exact hbuf.src_allocated i hi
  dst_allocated := fun i hi => by
    have hne : (dst.add i).blk ≠ L.interProgMem.blk := hdst
    rw [Layout.bytes_of_ne hne]
    exact hbuf.dst_allocated i hi
  apart := hbuf.apart

theorem rqOutGetMemSizes_client {n : ℕ} (hn : n < 2 ^ 31) : rqOutGetMemSizes n true true =
    (0, some (sizeofWorkMem + 4 * n), some (sizeofWorkMem + 4 * n)) := by
  have hsize : sizeOf64 (sizeofWorkMem + (n : ℤ) * 4) = sizeofWorkMem + 4 * n := by
    unfold sizeOf64 sizeofWorkMem
    omega
  unfold rqOutGetMemSizes
  rw [hsize]
  rfl

theorem FullRank.length_pos (hP : P.Valid) (hfull : FullRank P E) : 0 < E.length := by
  have hK_le := hfull.K_le_dedup hP
  have hK_pos := hP.one_le_K
  have hdedup := E.dedup_sublist.length_le
  omega

/-- What `transcode` writes are the blocks of the other symbols, and its status
tells whether bytes are left.  It does not start if the number of source symbols
is not supported or if the IDs are too few. -/
theorem transcode_blockwise (hget : parametersGet K = .ok P) (hint : IsInt (E.length - K))
    (hin : TranscodeInput P E F w file x s) :
    Ends (transcode K w E F file x) s fun out _ =>
      if P.K = -1 then out = (rqErrEdom, [])
      else if FullRank P E then
        out.1 = (if E.length * w ∣ file.length then 0 else 1) ∧
          Blockwise (Encodes P E F w) (E.length * w) file out.2
      else out = (rqErrInsuffIds, []) := by
  have hfile := intOf_natCast hin.file_lt
  have hinput := intOf_natCast hin.input_lt
  rw [Nat.cast_mul] at hinput
  have hextra : intOf (E.length - K) = .ok (E.length - K) := intOf_eq_ok.mpr ⟨hint, rfl⟩
  unfold transcode
  rw [ends_bind, ends_embed]
  refine ⟨_, hfile, ?_⟩
  rw [ends_bind, ends_embed]
  refine ⟨_, hinput, ?_⟩
  rw [ends_bind, ends_embed]
  refine ⟨_, hextra, ?_⟩
  rw [ends_bind, ends_embed]
  by_cases hK : P.K = -1
  · simp only [if_pos hK]
    exact ⟨_, rqInterGetMemSizes_unsupported hget hK _ _ _ _, ends_pure.mpr rfl⟩
  simp only [if_neg hK]
  have hP := parametersGet_valid hget hK
  have hlen : F.length ≤ F.length * w := Nat.le_mul_of_pos_right _ hin.symSize_pos
  have hlen_lt : F.length < 2 ^ 31 := hlen.trans_lt hin.output_lt
  have hout_lt : (sizeofWorkMem + 4 * F.length - sizeofWorkMem) / 4 < 2 ^ 31 := by omega
  let L : Layout := clientLayout hP hin.program_lt x.progMem hout_lt
  have hL : L.toSizes = clientSizes P E x.progMem (sizeofWorkMem + 4 * F.length) := rfl
  have hsizes := rqInterGetMemSizes_client hget hK hin.program_lt x.progMem
    (sizeofWorkMem + 4 * F.length) true
  refine ⟨_, hsizes, ?_⟩
  dsimp only
  rw [if_neg (by decide), rqOutGetMemSizes_client hlen_lt]
  apply (prepare_ends hget hK hin.program_lt hin.output_lt hL hin.sizes.related).bind
  rintro err s₁ (⟨hfull, rfl, a, hR, hinter, hout, hbytes⟩ | ⟨hnot, rfl⟩)
  · simp only [if_pos hfull]
    have hpos : 0 < E.length * w := Nat.mul_pos (hfull.length_pos hP) hin.symSize_pos
    have hprepared : Prepared L x w (.ofIds hget hK E) (.ofIds hget hK F) s₁ a := {
      related := hR
      interProg_eq := hinter
      outProg_eq := hout
      params_eq := rfl
      solve := hbytes ▸ symbolBuffers_bytes hin.solve hin.src_ne hin.iblock_ne
      emit := hbytes ▸ symbolBuffers_bytes hin.emit hin.iblock_ne hin.enc_ne }
    exact hprepared.loop_ends hin.symSize_lt hpos _ file s₁ a (Nat.lt_succ_self _)
  · simp only [if_neg hnot]
    exact ends_pure.mpr rfl

/-- How many blocks of the file `transcode` writes. -/
noncomputable def blocksWritten (P : Parameters) (E : List UInt32) (w : ℕ)
    (file : List UInt8) : ℕ :=
  if P.K ≠ -1 ∧ FullRank P E then file.length / (E.length * w) else 0

/-- Each block that `transcode` writes has the other symbols of the block with the
same number in the file; nothing else is written.  By `TranscodeInput` symbols are not
empty, the sizes of the file, of its blocks and of the matrix are of type `int`, and the
memory is as large as the program asks for.  What the function returns is whether the
status is 0. -/
theorem transcode_ends (hget : parametersGet K = .ok P) (hint : IsInt (E.length - K))
    (hin : TranscodeInput P E F w file x s) :
    Ends (transcode K w E F file x) s fun out _ =>
      out.1 = (if P.K = -1 then rqErrEdom else if ¬ FullRank P E then rqErrInsuffIds
        else if E.length * w ∣ file.length then 0 else 1) ∧
      out.2.length = F.length * w * blocksWritten P E w file ∧
      ∀ i < blocksWritten P E w file,
        Encodes P E F w (block (E.length * w) i file) (block (F.length * w) i out.2) := by
  apply (transcode_blockwise hget hint hin).mono
  rintro ⟨status, out⟩ s' hout
  by_cases hK : P.K = -1
  · have hnone : blocksWritten P E w file = 0 := if_neg fun h => h.1 hK
    rw [if_pos hK] at hout
    cases hout
    rw [if_pos hK, hnone]
    exact ⟨rfl, rfl, fun i hi => absurd hi (Nat.not_lt_zero i)⟩
  rw [if_neg hK] at hout ⊢
  by_cases hfull : FullRank P E
  · rw [if_pos hfull] at hout
    obtain ⟨hstatus, hblocks⟩ := hout
    have hP := parametersGet_valid hget hK
    have hlen : ∀ b b', Encodes P E F w b b' → b'.length = F.length * w := fun _ _ h => h.length_eq
    have hpos : 0 < E.length * w := Nat.mul_pos (hfull.length_pos hP) hin.symSize_pos
    have hall : blocksWritten P E w file = file.length / (E.length * w) := if_pos ⟨hK, hfull⟩
    rw [if_neg (not_not.mpr hfull), hall]
    exact ⟨hstatus, hblocks.length_eq hpos hlen, hblocks.block_rel hpos hlen⟩
  · have hnone : blocksWritten P E w file = 0 := if_neg fun h => hfull h.2
    rw [if_neg hfull] at hout
    cases hout
    rw [if_pos hfull, hnone]
    exact ⟨rfl, rfl, fun i hi => absurd hi (Nat.not_lt_zero i)⟩

/-- A file that was transcoded from the source symbols to any symbols that are
enough to solve for the block comes back when it is transcoded from these.  What
is behind the last complete block was reported and is lost.  The source symbols have
to be enough as well, and both runs have the sizes of `TranscodeInput`. -/
theorem transcode_roundTrip (hget : parametersGet K = .ok P) (hK : P.K ≠ -1)
    (hE : (E.length : ℤ) = K) (hfullE : FullRank P E) (hfullF : FullRank P F)
    (hin : TranscodeInput P E F w file x s) :
    Ends (transcode K w E F file x) s fun out _ =>
      out.1 = (if E.length * w ∣ file.length then 0 else 1) ∧
        out.2.length = F.length * w * (file.length / (E.length * w)) ∧
          ∀ y t, TranscodeInput P F E w out.2 y t →
            Ends (transcode K w F E out.2 y) t fun back _ =>
              back = (0, complete (E.length * w) file) := by
  have hP := parametersGet_valid hget hK
  have hKeq : P.K = K := (parametersGet_row hget hK).2.1
  have hF_ge := hfullF.K_le_dedup hP
  have hF_dedup := F.dedup_sublist.length_le
  have hEw : 0 < E.length * w := Nat.mul_pos (hfullE.length_pos hP) hin.symSize_pos
  have hFw : 0 < F.length * w := Nat.mul_pos (hfullF.length_pos hP) hin.symSize_pos
  have hF_le : F.length ≤ F.length * w := Nat.le_mul_of_pos_right _ hin.symSize_pos
  have hF_lt := hin.output_lt
  have hE_int : IsInt (E.length - K) := ⟨by omega, by omega⟩
  have hF_int : IsInt (F.length - K) := ⟨by omega, by omega⟩
  apply (transcode_blockwise hget hE_int hin).mono
  rintro ⟨status, out⟩ s' hout
  rw [if_neg hK, if_pos hfullE] at hout
  obtain ⟨hstatus, hblocks⟩ := hout
  have hlen := hblocks.length_eq hEw fun _ _ h => h.length_eq
  refine ⟨hstatus, hlen, fun y t hin' => ?_⟩
  apply (transcode_blockwise hget hF_int hin').mono
  rintro ⟨status', back⟩ t' hback
  rw [if_neg hK, if_pos hfullF, if_pos (hlen ▸ Nat.dvd_mul_right _ _)] at hback
  obtain ⟨rfl, hblocks'⟩ := hback
  have hsame : back = complete (E.length * w) file :=
    hblocks.inverse hFw hEw (fun _ _ h => h.length_eq)
      (fun _ _ _ hb h h' => h.inverse hP (hE.trans hKeq.symm) hb h') hblocks'
  rw [hsame]

end File

/-- The memory of the program, with nothing in it yet. -/
def fileClient (n m : ℕ) : Client where
  interWork := freshMem n
  interProg := none
  outWork := freshMem m
  outProgMem := Array.replicate (13 + m) 0
  heap := ⟨#[Array.replicate (sizeofInterProgram + 31 * (n + 17)) 0, Array.replicate n 0,
    Array.replicate 27 0, Array.replicate m 0]⟩

def smallBuffers : FileBuffers := ⟨⟨0, 0⟩, ⟨1, 0⟩, ⟨2, 0⟩, ⟨3, 0⟩⟩

theorem transcodeInput_small {E F : List UInt32} {file : List UInt8}
    (hE : E.length < 1000) (hF : F.length < 1000) (hfile : file.length < 1000) :
    TranscodeInput params10 E F 1 file smallBuffers (fileClient E.length F.length) where
  symSize_pos := le_rfl
  symSize_lt := by decide
  file_lt := by omega
  input_lt := by omega
  output_lt := by omega
  program_lt := by
    show (E.length + 0 + 7 + 10) * 27 < 2 ^ 31
    omega
  sizes := {
    interWork_size := by
      rw [interCap_clientSizes]
      exact Array.size_replicate
    outWork_size := by
      show (Array.replicate F.length (0 : UInt32)).size =
        (sizeofWorkMem + 4 * F.length - sizeofWorkMem) / 4
      rw [Array.size_replicate]
      omega
    outProg_size := by
      show (Array.replicate (13 + F.length) (0 : UInt32)).size =
        (sizeofWorkMem + 4 * F.length) / 4
      rw [Array.size_replicate, sizeofWorkMem]
      omega
    interProg_room := fun k hk => by
      have hk' : k < sizeofInterProgram + 4 * (E.length + 0 + 7 + 10) +
        (E.length + 0 + 7 + 10) * 27 := hk
      have hk'' : k < sizeofInterProgram + 31 * (E.length + 17) := by omega
      exact load_isSome.mpr
        (by simpa [fileClient, clientSizes, smallBuffers, blockSize] using hk'') }
  solve := {
    src_allocated := fun k hk =>
      load_isSome.mpr (by simpa [fileClient, smallBuffers, blockSize] using hk)
    dst_allocated := fun k hk => by
      have hk' : k < 27 * 1 := hk
      exact load_isSome.mpr (by simpa [fileClient, smallBuffers, blockSize] using hk')
    apart := disjoint_bytesFrom (by decide) }
  emit := {
    src_allocated := fun k hk => by
      have hk' : k < 27 * 1 := hk
      exact load_isSome.mpr (by simpa [fileClient, smallBuffers, blockSize] using hk')
    dst_allocated := fun k hk =>
      load_isSome.mpr (by simpa [fileClient, smallBuffers, blockSize] using hk)
    apart := disjoint_bytesFrom (by decide) }
  src_ne := by decide
  iblock_ne := by decide
  enc_ne := by decide

/-- Two blocks of ten bytes and three bytes that are lost. -/
theorem transcode_ends_ten :
    Ends (transcode 10 1 sourceIds receivedIds (List.replicate 23 84) smallBuffers)
      (fileClient 10 12) fun out _ =>
        out.1 = (if params10.K = -1 then rqErrEdom else
          if ¬ FullRank params10 sourceIds then rqErrInsuffIds else if 10 * 1 ∣ 23 then 0 else 1) ∧
        out.2.length = 12 * 1 *
          blocksWritten params10 sourceIds 1 (List.replicate 23 84) ∧
        ∀ i < blocksWritten params10 sourceIds 1 (List.replicate 23 84),
          Encodes params10 sourceIds receivedIds 1
            (block (10 * 1) i (List.replicate 23 84)) (block (12 * 1) i out.2) :=
  transcode_ends parametersGet_ten (by decide)
    (transcodeInput_small (by decide) (by decide) (by decide))

theorem transcode_roundTrip_ten :
    Ends (transcode 10 1 sourceIds receivedIds (List.replicate 23 84) smallBuffers)
      (fileClient 10 12) fun out _ => out.1 = 1 ∧
        Ends (transcode 10 1 receivedIds sourceIds out.2 smallBuffers) (fileClient 12 10)
          fun back _ => back = (0, List.replicate 20 84) := by
  apply (transcode_roundTrip parametersGet_ten (by decide) rfl fullRank_sourceIds
    fullRank_receivedIds (transcodeInput_small (by decide) (by decide) (by decide))).mono
  rintro ⟨status, out⟩ s' ⟨hstatus, hlen, hback⟩
  have hshort : out.length < 1000 := lt_of_eq_of_lt hlen (by decide)
  exact ⟨hstatus, hback smallBuffers (fileClient 12 10)
    (transcodeInput_small (by decide) (by decide) hshort)⟩

end TvRQ
