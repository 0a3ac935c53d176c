/-
# Compiling output programs

`RqOutCompile` copies the work memory with the IDs that were added.  The test of
the size of the program memory is the wrong way round: what it lets through is
memory that is not larger than the copy, and only memory of exactly the size of
the copy is both let through and large enough.
-/

import TvRQ.Api.AddIds

namespace TvRQ

open Imperative

/-- The size of the program of the IDs in the work memory. -/
def outProgSize (w : RqWorkMem) : ℤ := sizeofOutProgram + 4 * w.nESI

/-- The program in memory is the one of the work memory. -/
structure SameProgram (w : RqWorkMem) (mem : Array UInt32) : Prop where
  params_eq : (RqOutProgram.ofWords mem).params = w.params
  nESI_eq : (RqOutProgram.ofWords mem).nESI = w.nESI
  ids_eq : (RqOutProgram.ofWords mem).ESIs.toList.take w.nESI.toNat = w.ids

/-- Memory that is too small is refused and left alone; other memory gets the
program, and nothing is written to a word with a byte behind the given size. -/
def CompileCorrect (w : RqWorkMem) (size : ℕ) (mem : Array UInt32) : Prop :=
  Ends (rqOutCompile w size) mem fun ret mem' =>
    if (size : ℤ) < outProgSize w then ret = rqErrEnomem ∧ mem' = mem
    else ret = 0 ∧ SameProgram w mem' ∧ ∀ k, size < 4 * (k + 1) → mem'[k]? = mem[k]?

/-! ## Runs that reach the compiler -/

/-- Work memory whose words have room for what they stand for. -/
structure RqWorkMem.Compilable (w : RqWorkMem) : Prop where
  params_eq : parametersGet w.params.K = .ok w.params
  K_ne : w.params.K ≠ -1
  nESI_nonneg : 0 ≤ w.nESI
  nESI_lt : w.nESI < 2 ^ 31
  nESI_le : w.nESI ≤ w.ESIs.size

theorem pushId_compilable {id : UInt32} {w : RqWorkMem} {r : Unit × RqWorkMem}
    (hw : w.Compilable) (hrun : pushId id w = .ok r) : r.2.Compilable := by
  have hends : Ends (pushId id) w fun _ w' => w' = r.2 := ⟨r.1, r.2, hrun, rfl⟩
  unfold pushId at hends
  rw [ends_bind, ends_get] at hends
  have hpos := hw.nESI_nonneg
  rw [if_neg (by omega), ends_bind, ends_writeArray, ends_bind, ends_embed] at hends
  obtain ⟨hlt, nESI, hok, hmodify⟩ := hends
  obtain ⟨hint, rfl⟩ := intOf_eq_ok.mp hok
  rw [ends_modify] at hmodify
  rw [← hmodify]
  exact {
    params_eq := hw.params_eq
    K_ne := hw.K_ne
    nESI_nonneg := by show 0 ≤ w.nESI + 1; omega
    nESI_lt := hint.2
    nESI_le := by
      show w.nESI + 1 ≤ ((w.ESIs.setIfInBounds w.nESI.toNat id).size : ℤ)
      rw [Array.size_setIfInBounds]
      omega }

theorem addIds_compilable {beg count : ℤ} {w : RqWorkMem} {r : ℤ × RqWorkMem}
    (hw : w.Compilable) (hrun : addIds beg count w = .ok r) : r.2.Compilable := by
  have hpush : ∀ {n : ℕ} {f : ℕ → UInt32} {w' : RqWorkMem},
      forRange 0 n (fun i => pushId (f i)) w = .ok ((), w') → w'.Compilable :=
    fun hloop => Keeps.forRange (P := RqWorkMem.Compilable)
      (fun _ _ _ _ _ h hrun => pushId_compilable h hrun) _ _ hw hloop
  have hends : Ends (addIds beg count) w fun _ w' => w' = r.2 := ⟨r.1, r.2, hrun, rfl⟩
  unfold addIds at hends
  rw [ends_bind, ends_get] at hends
  split_ifs at hends with hfull
  · rw [ends_bind] at hends
    obtain ⟨_, w', hloop, hend⟩ := hends
    rw [← ends_pure.mp hend]
    exact hpush hloop
  · rw [ends_bind] at hends
    obtain ⟨_, w', hloop, hend⟩ := hends
    rw [← ends_pure.mp hend]
    exact hpush hloop

/-- Every run of calls that returns leaves memory that can be compiled. -/
theorem runCalls_compilable {calls : List (ℤ × ℤ)} {w : RqWorkMem} {r : List ℤ × RqWorkMem}
    (hw : w.Compilable) (hrun : runCalls addIds calls w = .ok r) : r.2.Compilable :=
  runCalls_keeps (fun _ _ _ _ h hcall => addIds_compilable h hcall) hw hrun

theorem Initialised.compilable {cap : ℕ} {add : ℤ → ℤ → Prog RqWorkMem ℤ} {w : RqWorkMem}
    (h : Initialised cap add w) : w.Compilable := by
  obtain ⟨hsize, hzero, -, hparams, hK⟩ := h.spec
  exact {
    params_eq := hparams
    K_ne := hK
    nESI_nonneg := hzero.ge
    nESI_lt := by omega
    nESI_le := by omega }

/-! ## The copy -/

theorem toNat_ofInt (x : ℤ) : (UInt32.ofInt x).toNat = (x % 2 ^ 32).toNat := by
  unfold UInt32.ofInt
  rw [UInt32.toNat_ofNat']
  omega

theorem ofInt_natCast (n : ℕ) : UInt32.ofInt n = UInt32.ofNat n := by
  apply UInt32.toNat_inj.mp
  rw [toNat_ofInt, UInt32.toNat_ofNat']
  omega

/-- An `int` survives being stored in a word. -/
theorem intOfWord_ofInt {x : ℤ} (h : IsInt x) : intOfWord (UInt32.ofInt x) = x := by
  have hmod : ((UInt32.ofInt x).toNat : ℤ) = x % ((2 ^ 32 : ℕ) : ℤ) := by
    rw [toNat_ofInt]
    omega
  have hwrap := wrap32_of_isInt h
  unfold wrap32 at hwrap
  rw [intOfWord, hmod, wrap32, Int.emod_bmod, hwrap]

theorem memcpyWords_ends {src : List UInt32} {sz : ℕ} {mem : Array UInt32}
    (hsrc : sz / 4 ≤ src.length) (hmem : sz / 4 ≤ mem.size) :
    Ends (memcpyWords src sz) mem fun _ mem' => mem'.size = mem.size ∧
      ∀ k, mem'[k]? = if k < sz / 4 then src[k]? else mem[k]? := by
  unfold memcpyWords
  refine forRange_ends (fun n (mem' : Array UInt32) => mem'.size = mem.size ∧
    ∀ k, mem'[k]? = if k < n then src[k]? else mem[k]?) (Nat.zero_le _)
    (fun n mem₁ _ hn hI => ?_) ⟨rfl, fun k => by simp⟩
  obtain ⟨hsize, hget⟩ := hI
  have hv : src.toArray[n]? = some src[n] := by
    rw [List.getElem?_toArray, List.getElem?_eq_getElem (by omega)]
  rw [ends_bind, ends_readArray]
  refine ⟨_, hv, ?_⟩
  rw [ends_bind, ends_get, ends_bind, ends_writeArray, ends_modify]
  refine ⟨by omega, by simpa using hsize, fun k => ?_⟩
  by_cases hk : k = n
  · subst hk
    rw [if_pos (Nat.lt_succ_self k), Array.getElem?_setIfInBounds_self_of_lt (by omega),
      List.getElem?_eq_getElem (by omega)]
  · have hiff : k < n + 1 ↔ k < n := by omega
    rw [Array.getElem?_setIfInBounds_ne (Ne.symm hk), hget k]
    simp only [hiff]

theorem RqWorkMem.words_eq (w : RqWorkMem) : w.words = [UInt32.ofInt w.params.K,
    .ofNat w.params.Kprime, .ofNat w.params.J, .ofNat w.params.L, .ofNat w.params.S,
    .ofNat w.params.H, .ofNat w.params.B, .ofNat w.params.W, .ofNat w.params.P, .ofNat w.params.P1,
    .ofNat w.params.U, .ofInt w.nESIMax, .ofInt w.nESI] ++ w.ESIs.toList := rfl

/-- The parameters are read back: no field is too large for its word. -/
theorem params_of_words {w : RqWorkMem} {mem : Array UInt32} (hw : w.Compilable)
    (hword : ∀ k v, k < 13 → w.words[k]? = some v → mem.getD k 0 = v) :
    (RqOutProgram.ofWords mem).params = w.params := by
  have hP := parametersGet_valid hw.params_eq hw.K_ne
  have hnat : ∀ k x : ℕ, k < 13 → w.words[k]? = some (UInt32.ofNat x) → x ≤ 60000 →
      (mem.getD k 0).toNat = x := fun k x hk hv hx => by
    rw [hword k _ hk hv, UInt32.toNat_ofNat_of_lt' (hx.trans_lt (by decide))]
  obtain ⟨⟨hKp_le, hJ_le, hL_le, hS_le, hH_le⟩, hB_le, hW_le, hP_le, hP1_le, hU_le⟩ := hP.fields_le
  have hK : intOfWord (mem.getD 0 0) = w.params.K := by
    rw [hword 0 (UInt32.ofInt w.params.K) (by omega) (by rw [w.words_eq]; rfl)]
    have hK_pos := hP.one_le_K
    have hK_le := hP.K_le
    exact intOfWord_ofInt ⟨by omega, by omega⟩
  apply Parameters.ext
  · exact hK
  · exact hnat 1 w.params.Kprime (by omega) (by rw [w.words_eq]; rfl) hKp_le
  · exact hnat 2 w.params.J (by omega) (by rw [w.words_eq]; rfl) hJ_le
  · exact hnat 3 w.params.L (by omega) (by rw [w.words_eq]; rfl) hL_le
  · exact hnat 4 w.params.S (by omega) (by rw [w.words_eq]; rfl) hS_le
  · exact hnat 5 w.params.H (by omega) (by rw [w.words_eq]; rfl) hH_le
  · exact hnat 6 w.params.B (by omega) (by rw [w.words_eq]; rfl) hB_le
  · exact hnat 7 w.params.W (by omega) (by rw [w.words_eq]; rfl) hW_le
  · exact hnat 8 w.params.P (by omega) (by rw [w.words_eq]; rfl) hP_le
  · exact hnat 9 w.params.P1 (by omega) (by rw [w.words_eq]; rfl) hP1_le
  · exact hnat 10 w.params.U (by omega) (by rw [w.words_eq]; rfl) hU_le

/-- The IDs are read back. -/
theorem ids_of_words {w : RqWorkMem} {mem : Array UInt32} {n : ℕ}
    (hget : ∀ k < 13 + n, mem[k]? = w.words[k]?) :
    (RqOutProgram.ofWords mem).ESIs.toList.take n = w.ESIs.toList.take n := by
  apply List.ext_getElem?
  intro k
  rw [List.getElem?_take, List.getElem?_take]
  split_ifs with hk
  · have hwords : w.words[13 + k]? = w.ESIs.toList[k]? := by
      rw [RqWorkMem.words, Nat.add_comm]
      rfl
    have hmem := hget (13 + k) (by omega)
    rw [hwords] at hmem
    rw [Array.getElem?_toList, ← hmem]
    show (mem.extract 13 mem.size)[k]? = mem[13 + k]?
    rw [Array.getElem?_extract]
    split_ifs with hlt
    · rfl
    · rw [Array.getElem?_eq_none (by omega)]
  · rfl

/-- The copy of the words is the program of the work memory. -/
theorem sameProgram_of_words {w : RqWorkMem} {mem : Array UInt32} (hw : w.Compilable)
    (hget : ∀ k < 13 + w.nESI.toNat, mem[k]? = w.words[k]?) : SameProgram w mem := by
  have hword : ∀ k v, k < 13 → w.words[k]? = some v → mem.getD k 0 = v := fun k v hk hv => by
    rw [Array.getD_eq_getD_getElem?, hget k (by omega), hv]
    rfl
  refine ⟨params_of_words hw hword, ?_, ids_of_words hget⟩
  show intOfWord (mem.getD 12 0) = w.nESI
  rw [hword 12 (UInt32.ofInt w.nESI) (by omega) (by rw [w.words_eq]; rfl)]
  exact intOfWord_ofInt ⟨by have := hw.nESI_nonneg; omega, hw.nESI_lt⟩

theorem length_words (w : RqWorkMem) : w.words.length = 13 + w.ESIs.size := by
  simp [RqWorkMem.words, Parameters.words]
  omega

/-- After any run of calls the compiler does what it has to do with exactly one
size of program memory. -/
theorem compileCorrect_iff {cap : ℕ} {w₀ w : RqWorkMem} (hinit : Initialised cap rqOutAddIds w₀)
    {calls : List (ℤ × ℤ)} {rets : List ℤ} (hrun : runCalls rqOutAddIds calls w₀ = .ok (rets, w))
    {size : ℕ} {mem : Array UInt32} (hmem : size / 4 ≤ mem.size) :
    CompileCorrect w size mem ↔ (size : ℤ) = outProgSize w := by
  have hw : w.Compilable := runCalls_compilable hinit.compilable hrun
  have hpos := hw.nESI_nonneg
  have hlt := hw.nESI_lt
  have hle := hw.nESI_le
  have hsz : (sizeOf64 (sizeofOutProgram + w.nESI * 4) : ℤ) = outProgSize w := by
    unfold sizeOf64 outProgSize sizeofOutProgram
    omega
  have hsz4 : sizeOf64 (sizeofOutProgram + w.nESI * 4) / 4 = 13 + w.nESI.toNat := by
    unfold outProgSize sizeofOutProgram at hsz
    unfold sizeofOutProgram
    omega
  unfold CompileCorrect rqOutCompile
  constructor
  · intro hends
    by_cases hlarge : sizeOf64 (sizeofOutProgram + w.nESI * 4) < size
    · -- Too much memory is refused.
      rw [if_pos hlarge, ends_pure, if_neg (by omega)] at hends
      cases hends.1
    · -- Too little memory is let through.
      rw [if_neg hlarge, ends_bind] at hends
      obtain ⟨_, mem', -, hret⟩ := hends
      rw [ends_pure] at hret
      by_contra hne
      rw [if_pos (by omega)] at hret
      cases hret.1
  · intro heq
    have hlen := length_words w
    have hsize : size = sizeOf64 (sizeofOutProgram + w.nESI * 4) := by omega
    rw [if_neg (by omega)]
    refine (memcpyWords_ends (by omega) (by omega)).bind fun _ mem' hpost => ?_
    obtain ⟨-, hget⟩ := hpost
    rw [ends_pure, if_neg (by omega)]
    refine ⟨rfl, sameProgram_of_words hw fun k hk => ?_, fun k hk => ?_⟩
    · rw [hget k, if_pos (by omega)]
    · rw [hget k, if_neg (by omega)]

/-- The work memory for ten symbols and two IDs, with one ID in it. -/
def partialMem : RqWorkMem := { emptyMem 2 with nESI := 1, ESIs := #[7, 0] }

/-- One ID in memory for one ID. -/
theorem compileCorrect_iff_one : CompileCorrect partialMem 56 (Array.replicate 14 0) := by
  have hrun : runCalls rqOutAddIds [(7, 1)] (emptyMem 2) = .ok ([0], partialMem) := by
    decide +kernel
  exact (compileCorrect_iff emptyMem_out hrun (by decide)).mpr (by decide)

/-- One ID in memory for two IDs, as the sizes for two symbols provide it. -/
theorem not_compileCorrect_partial :
    rqOutGetMemSizes 2 true true = (0, some 60, some 60) ∧
      Initialised 2 rqOutAddIds (emptyMem 2) ∧
        runCalls rqOutAddIds [(7, 1)] (emptyMem 2) = .ok ([0], partialMem) ∧
          rqOutCompile partialMem 60 (Array.replicate 15 0) =
            .ok (rqErrEnomem, Array.replicate 15 0) ∧
            ¬ CompileCorrect partialMem 60 (Array.replicate 15 0) := by
  have hrun : rqOutCompile partialMem 60 (Array.replicate 15 0) =
      .ok (rqErrEnomem, Array.replicate 15 0) := by decide +kernel
  refine ⟨by decide, emptyMem_out, by decide +kernel, hrun, fun h => ?_⟩
  have hpost := h.of_run hrun
  rw [if_neg (by decide)] at hpost
  cases hpost.1

end TvRQ
