/-
# Adding IDs

The work memory is a list of IDs with a capacity.  A call appends the IDs it is
asked for, as many as fit.  This is what the code does as long as the number of
stored IDs and the number of IDs to add have a sum that is an `int`: the sum is
compared with the capacity, and where it wraps around it is smaller.  The loop
then runs past the end of the memory.
-/

import TvRQ.Api.Out

namespace TvRQ

open Imperative

/-- The IDs that the memory holds. -/
def RqWorkMem.ids (w : RqWorkMem) : List UInt32 := w.ESIs.toList.take w.nESI.toNat

/-- The IDs that a call asks for. -/
def requested (nSymIdBeg nSymIdAdd : ℤ) : List UInt32 :=
  (List.range nSymIdAdd.toNat).map fun i : ℕ => UInt32.ofInt (nSymIdBeg + i)

@[simp]
theorem length_requested (nSymIdBeg nSymIdAdd : ℤ) :
    (requested nSymIdBeg nSymIdAdd).length = nSymIdAdd.toNat := by simp [requested]

/-- Work memory with room for `cap` IDs. -/
structure RqWorkMem.Valid (w : RqWorkMem) (cap : ℕ) : Prop where
  nESIMax_eq : w.nESIMax = cap
  size_eq : w.ESIs.size = cap
  nESI_nonneg : 0 ≤ w.nESI
  nESI_le : w.nESI ≤ cap

theorem RqWorkMem.Valid.length_ids {w : RqWorkMem} {cap : ℕ} (hw : w.Valid cap) :
    (w.ids.length : ℤ) = w.nESI := by
  have hsize := hw.size_eq
  have hpos := hw.nESI_nonneg
  have hle := hw.nESI_le
  simp only [RqWorkMem.ids, List.length_take, Array.length_toList, hsize]
  omega

/-- The array starts with the IDs. -/
theorem RqWorkMem.storesIds (w : RqWorkMem) : StoresIds w.ESIs w.ids.length w.ids where
  length_eq := rfl
  get_eq := fun i hi => by
    have hget : w.ids[i]? = w.ESIs[i]? := by
      rw [RqWorkMem.ids, List.length_take] at hi
      rw [RqWorkMem.ids, List.getElem?_take_of_lt (by omega), Array.getElem?_toList]
    rw [← hget, List.getD_eq_getElem?_getD, List.getElem?_eq_getElem hi]
    rfl

/-- Work memory after a successful initialisation, with the function that adds
IDs to it. -/
inductive Initialised (cap : ℕ) : (ℤ → ℤ → Prog RqWorkMem ℤ) → RqWorkMem → Prop
  | inter {nK nMaxExtra : ℤ} {size : ℕ} {mem w : RqWorkMem}
      (hcap : cap = (size - sizeofWorkMem) / 4) (hmem : mem.ESIs.size = cap)
      (hrun : rqInterInit nK nMaxExtra size mem = .ok (0, w)) : Initialised cap rqInterAddIds w
  | out {nK : ℤ} {size : ℕ} {mem w : RqWorkMem}
      (hcap : cap = (size - sizeofWorkMem) / 4) (hmem : mem.ESIs.size = cap)
      (hrun : rqOutInit nK size mem = .ok (0, w)) : Initialised cap rqOutAddIds w

/-! ## Runs -/

/-- A sequence of calls; the result is what they return. -/
def runCalls (add : ℤ → ℤ → Prog RqWorkMem ℤ) : List (ℤ × ℤ) → Prog RqWorkMem (List ℤ)
  | [] => pure []
  | (beg, count) :: calls => do
      let ret ← add beg count
      let rets ← runCalls add calls
      pure (ret :: rets)

/-- What every call preserves holds after the run. -/
theorem runCalls_keeps {add : ℤ → ℤ → Prog RqWorkMem ℤ} {I : RqWorkMem → Prop}
    {calls : List (ℤ × ℤ)} {w : RqWorkMem} {r : List ℤ × RqWorkMem}
    (hstep : ∀ c ∈ calls, ∀ w r, I w → add c.1 c.2 w = .ok r → I r.2) (hw : I w)
    (hrun : runCalls add calls w = .ok r) : I r.2 := by
  induction calls generalizing w r with
  | nil =>
      cases hrun
      exact hw
  | cons call calls ih =>
      have hends : Ends (runCalls add (call :: calls)) w fun _ w' => w' = r.2 :=
        ⟨r.1, r.2, hrun, rfl⟩
      rw [runCalls, ends_bind] at hends
      obtain ⟨ret, w₁, hcall, hends⟩ := hends
      rw [ends_bind] at hends
      obtain ⟨rets, w₂, hcalls, hend⟩ := hends
      rw [← ends_pure.mp hend]
      exact ih (fun c hc => hstep c (List.mem_cons_of_mem _ hc))
        (hstep call List.mem_cons_self w _ hw hcall) hcalls

/-- What a call with the given range has to do to the memory.  `asked` are all
IDs asked for up to and including this call. -/
structure CallCorrect (asked : List UInt32) (nSymIdBeg nSymIdAdd : ℤ) (w : RqWorkMem) (ret : ℤ)
    (w' : RqWorkMem) : Prop where
  nESI_nonneg : 0 ≤ w'.nESI
  nESI_le : w'.nESI ≤ w'.nESIMax
  nESIMax_eq : w'.nESIMax = w.nESIMax
  ids_eq : w'.ids = asked.take w'.nESIMax.toNat
  ret_zero : ret = 0 ↔ w'.ids = w.ids ++ requested nSymIdBeg nSymIdAdd
  ret_max : ret = rqErrMaxIdsReached ↔ w'.ids ≠ w.ids ++ requested nSymIdBeg nSymIdAdd

/-- Every call of a run returns and does what it has to do. -/
def RunCorrect (add : ℤ → ℤ → Prog RqWorkMem ℤ) :
    List UInt32 → RqWorkMem → List (ℤ × ℤ) → Prop
  | _, _, [] => True
  | asked, w, (beg, count) :: calls => Ends (add beg count) w fun ret w' =>
      CallCorrect (asked ++ requested beg count) beg count w ret w' ∧
        RunCorrect add (asked ++ requested beg count) w' calls

/-- The sum that each call compares with the capacity is an `int`; `total` IDs
have been asked for before. -/
def SumsFit (cap : ℕ) : ℕ → List (ℤ × ℤ) → Prop
  | _, [] => True
  | total, (_, count) :: calls =>
      ((min total cap : ℕ) : ℤ) + count < 2 ^ 31 ∧ SumsFit cap (total + count.toNat) calls

instance (cap : ℕ) : ∀ total calls, Decidable (SumsFit cap total calls)
  | _, [] => isTrue trivial
  | total, (_, count) :: calls =>
      have := instDecidableSumsFit cap (total + count.toNat) calls
      inferInstanceAs (Decidable (_ ∧ _))

section Calls

variable {w : RqWorkMem} {cap : ℕ}

/-- Storing one ID. -/
theorem pushId_ends (hw : w.Valid cap) (hcap : cap < 2 ^ 31) (id : UInt32)
    {Q : Unit → RqWorkMem → Prop} :
    Ends (pushId id) w Q ↔ w.nESI < cap ∧
      Q () { w with nESI := w.nESI + 1, ESIs := w.ESIs.setIfInBounds w.nESI.toNat id } := by
  have hpos := hw.nESI_nonneg
  have hle := hw.nESI_le
  have hsize := hw.size_eq
  unfold pushId
  rw [ends_bind, ends_get, if_neg (by omega), ends_bind, ends_writeArray, ends_bind, ends_embed]
  constructor
  · rintro ⟨hlt, nESI, hint, hQ⟩
    obtain ⟨-, rfl⟩ := intOf_eq_ok.mp hint
    exact ⟨by omega, ends_modify.mp hQ⟩
  · rintro ⟨hlt, hQ⟩
    exact ⟨by omega, _, intOf_eq_ok.mpr ⟨⟨by omega, by omega⟩, rfl⟩, ends_modify.mpr hQ⟩

theorem RqWorkMem.Valid.push (hw : w.Valid cap) (hlt : w.nESI < cap) (id : UInt32) :
    let w' : RqWorkMem :=
      { w with nESI := w.nESI + 1, ESIs := w.ESIs.setIfInBounds w.nESI.toNat id }
    w'.Valid cap ∧ w'.ids = w.ids ++ [id] := by
  have hpos := hw.nESI_nonneg
  have hsize := hw.size_eq
  refine ⟨⟨hw.nESIMax_eq, by simpa using hsize, by show 0 ≤ w.nESI + 1; omega,
    by show w.nESI + 1 ≤ cap; omega⟩, ?_⟩
  have hsucc : (w.nESI + 1).toNat = w.nESI.toNat + 1 := by omega
  have hlen : w.nESI.toNat < w.ESIs.toList.length := by
    rw [Array.length_toList]
    omega
  simp only [RqWorkMem.ids, hsucc, Array.toList_setIfInBounds]
  rw [List.take_add_one, List.take_set_of_le le_rfl, List.getElem?_set_self hlen]
  rfl

/-- Storing as many IDs as there is room for. -/
theorem pushLoop_ends (hw : w.Valid cap) (hcap : cap < 2 ^ 31) (f : ℕ → UInt32) {n : ℕ}
    (hn : w.nESI + n ≤ cap) :
    Ends (forRange 0 n fun i => pushId (f i)) w fun _ w' => w'.Valid cap ∧
      w'.params = w.params ∧ w'.nESI = w.nESI + n ∧ w'.ids = w.ids ++ (List.range n).map f := by
  refine forRange_ends (fun k (w' : RqWorkMem) => w'.Valid cap ∧ w'.params = w.params ∧
    w'.nESI = w.nESI + k ∧ w'.ids = w.ids ++ (List.range k).map f) (Nat.zero_le n)
    (fun k w₁ _ hk hI => ?_) ⟨hw, rfl, by simp, by simp⟩
  obtain ⟨hw₁, hparams, hnESI, hids⟩ := hI
  have hlt : w₁.nESI < cap := by omega
  obtain ⟨hvalid, hpush⟩ := hw₁.push hlt (f k)
  refine (pushId_ends hw₁ hcap (f k)).mpr ⟨hlt, hvalid, hparams, ?_, ?_⟩
  · show w₁.nESI + 1 = w.nESI + ((k + 1 : ℕ) : ℤ)
    omega
  · rw [hpush, hids, List.range_succ, List.map_append, List.append_assoc]
    rfl

/-- Storing more IDs than there is room for leaves the memory. -/
theorem not_pushLoop_ends (hw : w.Valid cap) (hcap : cap < 2 ^ 31) (f : ℕ → UInt32) {n : ℕ}
    (hn : (cap : ℤ) < w.nESI + n) (Q : Unit → RqWorkMem → Prop) :
    ¬ Ends (forRange 0 n fun i => pushId (f i)) w Q := by
  have hle := hw.nESI_le
  let k : ℕ := (cap - w.nESI).toNat
  have hk : w.nESI + k = cap := by omega
  intro hends
  rw [forRange_split (Nat.zero_le k) (show k ≤ n by omega), ends_bind] at hends
  obtain ⟨_, w₁, hrun, hrest⟩ := hends
  obtain ⟨hw₁, -, hnESI, -⟩ := (pushLoop_ends hw hcap f hk.le).of_run hrun
  rw [forRange_cons (show k < n by omega), ends_bind, pushId_ends hw₁ hcap] at hrest
  omega

/-- A call whose sum does not overflow. -/
theorem addIds_ends (hw : w.Valid cap) (hcap : cap < 2 ^ 31) (beg : ℤ) {count : ℤ}
    (hcount : -2 ^ 31 ≤ count) (hsum : w.nESI + count < 2 ^ 31) :
    Ends (addIds beg count) w fun ret w' => w'.Valid cap ∧ w'.params = w.params ∧
      w'.ids = (w.ids ++ requested beg count).take cap ∧
        ret = if w.nESI + count ≤ cap then 0 else rqErrMaxIdsReached := by
  have hpos := hw.nESI_nonneg
  have hle := hw.nESI_le
  have hmax := hw.nESIMax_eq
  have hlen := hw.length_ids
  have hwrap : wrap32 (w.nESI + count) = w.nESI + count := wrap32_of_isInt ⟨by omega, hsum⟩
  unfold addIds
  rw [ends_bind, ends_get, hwrap, hmax]
  by_cases hfits : w.nESI + count ≤ cap
  · rw [if_neg (by omega), if_pos hfits]
    refine (pushLoop_ends hw hcap _ (by omega)).bind fun _ w' hpost => ?_
    refine ends_pure.mpr ⟨hpost.1, hpost.2.1, ?_, rfl⟩
    rw [hpost.2.2.2, List.take_of_length_le]
    · rfl
    · simp only [List.length_append, length_requested]
      omega
  · rw [if_pos (by omega), if_neg hfits]
    refine (pushLoop_ends hw hcap _ (by omega)).bind fun _ w' hpost => ?_
    refine ends_pure.mpr ⟨hpost.1, hpost.2.1, ?_, rfl⟩
    rw [hpost.2.2.2, List.take_append, List.take_of_length_le (by omega), requested,
      ← List.map_take, List.take_range]
    congr 3
    omega

/-- A call whose sum overflows leaves the memory. -/
theorem not_addIds_ends (hw : w.Valid cap) (hcap : cap < 2 ^ 31) (beg : ℤ) {count : ℤ}
    (hcount : count < 2 ^ 31) (hsum : 2 ^ 31 ≤ w.nESI + count) (Q : ℤ → RqWorkMem → Prop) :
    ¬ Ends (addIds beg count) w Q := by
  have hle := hw.nESI_le
  have hpos := hw.nESI_nonneg
  have hmax := hw.nESIMax_eq
  have hwrap := wrap32_of_overflow hsum (by omega)
  unfold addIds
  rw [ends_bind, ends_get, hwrap, hmax, if_neg (by omega), ends_bind]
  exact not_pushLoop_ends hw hcap _ (by omega) _

/-- Both functions have the same body. -/
theorem Initialised.add_eq {add : ℤ → ℤ → Prog RqWorkMem ℤ} (h : Initialised cap add w) :
    add = addIds := by
  cases h <;> rfl

/-- What successful initialisations leave in the memory. -/
theorem rqInterInit_ends {nK nMaxExtra : ℤ} {size : ℕ} {mem : RqWorkMem} {P : Parameters}
    (hP : parametersGet nK = .ok P) :
    Ends (rqInterInit nK nMaxExtra size) mem fun ret w => ret = 0 →
      P.K ≠ -1 ∧ w = ⟨P, wrap32 ((size - sizeofWorkMem) / 4 : ℕ), 0, mem.ESIs⟩ := by
  unfold rqInterInit
  split_ifs with hsize
  · exact ends_pure.mpr fun h => by cases h
  · rw [ends_bind, ends_embed]
    refine ⟨P, hP, ?_⟩
    rw [ends_bind, ends_modify]
    by_cases hK : P.K = -1
    · rw [if_pos hK]
      exact ends_pure.mpr fun h => by cases h
    · rw [if_neg hK, ends_bind, ends_ensure]
      refine ⟨(parametersGet_row hP hK).2.1, ?_⟩
      rw [ends_bind, ends_modify]
      split_ifs with hmax
      · exact ends_pure.mpr fun h => by cases h
      · rw [ends_bind, ends_modify, ends_pure]
        exact fun _ => ⟨hK, rfl⟩

theorem rqOutInit_ends {nK : ℤ} {size : ℕ} {mem : RqWorkMem} {P : Parameters}
    (hP : parametersGet nK = .ok P) :
    Ends (rqOutInit nK size) mem fun ret w => ret = 0 →
      P.K ≠ -1 ∧ w = ⟨P, wrap32 ((size - sizeofWorkMem) / 4 : ℕ), 0, mem.ESIs⟩ := by
  unfold rqOutInit
  split_ifs with hsize
  · exact ends_pure.mpr fun h => by cases h
  · rw [ends_bind, ends_embed]
    refine ⟨P, hP, ?_⟩
    rw [ends_bind, ends_modify]
    by_cases hK : P.K = -1
    · rw [if_pos hK]
      exact ends_pure.mpr fun h => by cases h
    · rw [if_neg hK, ends_bind, ends_modify, ends_pure]
      exact fun _ => ⟨hK, rfl⟩

/-- The memory after it was initialised. -/
theorem Initialised.spec {add : ℤ → ℤ → Prog RqWorkMem ℤ} (h : Initialised cap add w) :
    w.ESIs.size = cap ∧ w.nESI = 0 ∧ w.nESIMax = wrap32 cap ∧
      parametersGet w.params.K = .ok w.params ∧ w.params.K ≠ -1 := by
  cases h with
  | @inter nK nMaxExtra size mem _ hcap hmem hrun =>
      obtain ⟨P, hP⟩ := exists_parametersGet nK
      obtain ⟨hK, rfl⟩ := (rqInterInit_ends hP).of_run hrun rfl
      exact ⟨hmem, rfl, by rw [hcap], (parametersGet_row hP hK).2.1.symm ▸ hP, hK⟩
  | @out nK size mem _ hcap hmem hrun =>
      obtain ⟨P, hP⟩ := exists_parametersGet nK
      obtain ⟨hK, rfl⟩ := (rqOutInit_ends hP).of_run hrun rfl
      exact ⟨hmem, rfl, by rw [hcap], (parametersGet_row hP hK).2.1.symm ▸ hP, hK⟩

/-- The memory has room for the IDs it was made for and is empty. -/
theorem Initialised.valid {add : ℤ → ℤ → Prog RqWorkMem ℤ} (h : Initialised cap add w)
    (hcap : cap < 2 ^ 31) : w.Valid cap ∧ w.nESI = 0 := by
  obtain ⟨hsize, hzero, hmax, -⟩ := h.spec
  have hwrap : wrap32 cap = cap := wrap32_of_isInt ⟨by omega, by exact_mod_cast hcap⟩
  exact ⟨⟨hmax.trans hwrap, hsize, hzero.ge, by omega⟩, hzero⟩

/-- A call that behaves like an append has done what it has to do. -/
theorem callCorrect_of_append {asked : List UInt32} {beg count ret : ℤ} {w' : RqWorkMem}
    (hw : w.Valid cap) (hw' : w'.Valid cap) (hcount : 0 ≤ count)
    (hasked : w.ids = asked.take cap)
    (hids : w'.ids = (w.ids ++ requested beg count).take cap)
    (hret : ret = if w.nESI + count ≤ cap then 0 else rqErrMaxIdsReached) :
    CallCorrect (asked ++ requested beg count) beg count w ret w' := by
  have hlen := hw.length_ids
  have hall : w.nESI + count ≤ cap ↔ w'.ids = w.ids ++ requested beg count := by
    rw [hids, List.take_eq_self_iff, List.length_append, length_requested]
    omega
  have hmax := hw'.nESIMax_eq
  exact {
    nESI_nonneg := hw'.nESI_nonneg
    nESI_le := hmax ▸ hw'.nESI_le
    nESIMax_eq := hmax.trans hw.nESIMax_eq.symm
    ids_eq := by
      rw [hids, hasked, hmax, Int.toNat_natCast, List.take_append, List.take_append,
        List.take_take, min_self, List.length_take]
      congr 2
      omega
    ret_zero := by
      rw [← hall, hret]
      split_ifs with hfits <;> simp [hfits, rqErrMaxIdsReached]
    ret_max := by
      rw [ne_eq, ← hall, hret]
      split_ifs with hfits <;> simp [hfits, rqErrMaxIdsReached] }

/-- Runs of calls from memory that holds the first of the IDs asked for. -/
theorem runCorrect_iff (hw : w.Valid cap) (hcap : cap < 2 ^ 31) {asked : List UInt32}
    (hasked : w.ids = asked.take cap) {calls : List (ℤ × ℤ)}
    (hcalls : ∀ c ∈ calls, 0 ≤ c.2 ∧ c.2 < 2 ^ 31) :
    RunCorrect addIds asked w calls ↔ SumsFit cap asked.length calls := by
  induction calls generalizing w asked with
  | nil => exact Iff.rfl
  | cons call calls ih =>
      obtain ⟨beg, count⟩ := call
      obtain ⟨hcount, hcount'⟩ := hcalls _ List.mem_cons_self
      have hnESI : w.nESI = ((min asked.length cap : ℕ) : ℤ) := by
        rw [← hw.length_ids, hasked, List.length_take, Nat.min_comm]
      have hrest : ∀ c ∈ calls, 0 ≤ c.2 ∧ c.2 < 2 ^ 31 := fun c hc =>
        hcalls c (List.mem_cons_of_mem _ hc)
      have hnext : ∀ {w' : RqWorkMem}, w'.Valid cap →
          w'.ids = (w.ids ++ requested beg count).take cap →
          (RunCorrect addIds (asked ++ requested beg count) w' calls ↔
            SumsFit cap (asked.length + count.toNat) calls) := by
        intro w' hw' hids
        have hlen : (asked ++ requested beg count).length = asked.length + count.toNat := by simp
        rw [← hlen]
        refine ih hw' ?_ hrest
        rw [hids, hasked, List.take_append, List.take_append, List.take_take, min_self,
          List.length_take]
        congr 2
        omega
      show Ends _ _ _ ↔ _ ∧ _
      rw [← hnESI]
      constructor
      · intro hends
        have hsum : w.nESI + count < 2 ^ 31 := by
          by_contra hge
          exact not_addIds_ends hw hcap beg hcount' (not_lt.mp hge) _ hends
        obtain ⟨ret, w', hrun, -, htail⟩ := hends
        obtain ⟨hw', -, hids, -⟩ := (addIds_ends hw hcap beg (by omega) hsum).of_run hrun
        exact ⟨hsum, (hnext hw' hids).mp htail⟩
      · rintro ⟨hsum, htail⟩
        refine (addIds_ends hw hcap beg (by omega) hsum).mono fun ret w' hpost => ?_
        obtain ⟨hw', -, hids, hret⟩ := hpost
        exact ⟨callCorrect_of_append hw hw' hcount hasked hids hret, (hnext hw' hids).mpr htail⟩

/-- After either initialisation a run of calls is correct exactly when no call
makes the sum it compares with the capacity overflow. -/
theorem initialised_runCorrect_iff {add : ℤ → ℤ → Prog RqWorkMem ℤ}
    (hinit : Initialised cap add w) (hcap : cap < 2 ^ 31) {calls : List (ℤ × ℤ)}
    (hcalls : ∀ c ∈ calls, IsInt c.1 ∧ IsInt c.2 ∧ 0 ≤ c.2) :
    RunCorrect add [] w calls ↔ SumsFit cap 0 calls := by
  obtain ⟨hw, hzero⟩ := hinit.valid hcap
  rw [hinit.add_eq]
  refine runCorrect_iff hw hcap ?_ fun c hc => ⟨(hcalls c hc).2.2, (hcalls c hc).2.1.2⟩
  simp [RqWorkMem.ids, hzero]

end Calls

/-- Uninitialised work memory with room for `cap` IDs. -/
def freshMem (cap : ℕ) : RqWorkMem := ⟨.unsupported, 0, 0, Array.replicate cap 0⟩

/-- The work memory for ten symbols and no IDs yet. -/
def emptyMem (cap : ℕ) : RqWorkMem := ⟨params10, cap, 0, Array.replicate cap 0⟩

theorem emptyMem_inter : Initialised 12 rqInterAddIds (emptyMem 12) :=
  have hrun : rqInterInit 10 2 100 (freshMem 12) = .ok (0, emptyMem 12) := by decide +kernel
  .inter rfl rfl hrun

theorem emptyMem_out : Initialised 2 rqOutAddIds (emptyMem 2) :=
  have hrun : rqOutInit 10 60 (freshMem 2) = .ok (0, emptyMem 2) := by decide +kernel
  .out rfl rfl hrun

/-- Runs that are cut short after either initialisation. -/
theorem initialised_runCorrect_iff_small :
    RunCorrect rqInterAddIds [] (emptyMem 12) [(0, 10), (-1, 5), (7, 0)] ∧
      RunCorrect rqOutAddIds [] (emptyMem 2) [(2147483647, 2), (5, 1)] :=
  ⟨(initialised_runCorrect_iff emptyMem_inter (by decide) (by decide)).mpr (by decide),
    (initialised_runCorrect_iff emptyMem_out (by decide) (by decide)).mpr (by decide)⟩

/-- A second call with the largest count writes behind the capacity. -/
theorem not_runCorrect_wrap : Initialised 12 rqInterAddIds (emptyMem 12) ∧
    ¬ RunCorrect rqInterAddIds [] (emptyMem 12) [(0, 1), (1, 2147483647)] := by
  refine ⟨emptyMem_inter, ?_⟩
  obtain ⟨hw, -⟩ := emptyMem_inter.valid (by decide)
  rw [show rqInterAddIds = addIds from rfl, runCorrect_iff hw (by decide) rfl (by decide)]
  decide

end TvRQ
