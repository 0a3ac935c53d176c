/-
# The IDs of the tests

`get_random_esis` draws random IDs and notices repetitions with a hash table of
its own, searched by linear probing: what it returns are the first different
IDs among those drawn.  `get_esis_after_loss` draws for each ID whether it is
lost.  Both return different IDs, whatever numbers are drawn, and draw no more
than they need.
-/

import TvRQ.Api.OutCompile
import TvRQ.Lib.LinearProbing

namespace TvRQ

open Imperative LinearProbing

/-- The mark of a free slot. -/
def hempty : UInt32 := 0xffffffff

/-- The next random number; the list is what `rand` will return. -/
def nextRand : Prog (List UInt32) UInt32 := do
  match ← get with
  | [] => throw .diverges
  | r :: draws =>
      set draws
      pure r

/-- An ID made of a random number. -/
def lowBits (r : UInt32) : UInt32 := r &&& 0xffffff

/-- The loop over the slots from `hidx` on: whether the value was found, and where
the loop was left. -/
def probe {σ : Type} (hESIs : Array UInt32) (v : UInt32) : ℕ → ℕ → Prog σ (Bool × ℕ)
  | 0, _ => throw .diverges
  | fuel + 1, hidx => do
      let entry ← readArray hESIs hidx
      if entry ≠ hempty then
        if entry = v then
          pure (true, hidx)
        else
          probe hESIs v fuel (if hidx + 1 = hESIs.size then 0 else hidx + 1)
      else
        pure (false, hidx)

/-- Draw until the ID is a new one; it is returned with its slot. -/
def propose (hESIs : Array UInt32) : ℕ → Prog (List UInt32) (UInt32 × ℕ)
  | 0 => throw .diverges
  | fuel + 1 => do
      let r ← nextRand
      let v := lowBits r
      let (retry, hidx) ← probe hESIs v (hESIs.size + 1) (v.toNat % hESIs.size)
      if retry then
        propose hESIs fuel
      else
        pure (v, hidx)

/-- Draw one more ID and put it into the table. -/
def drawEsi (_ : ℕ) : Array UInt32 × List UInt32 → Prog (List UInt32) (Array UInt32 × List UInt32)
  | (hESIs, ESIs) => do
    let draws ← get
    let (v, hidx) ← propose hESIs (draws.length + 1)
    let entry ← readArray hESIs hidx
    ensure (entry = hempty)
    let hESIs ← writeArray hESIs hidx v
    pure (hESIs, ESIs ++ [v])

/-- Compute a set of random, distinct ESIs. -/
def getRandomEsis (nESIs : ℕ) : Prog (List UInt32) (List UInt32) := do
  let _ ← embed (intOf (3 * nESIs))
  let hESIs := Array.replicate (3 * nESIs) hempty
  let (_, ESIs) ← foldRange 0 nESIs (hESIs, []) drawEsi
  pure ESIs

/-- Count IDs up to one that is not lost.  What `lost` decides is whether a random
number is below the rate of the losses, in floating point. -/
def nextKept (lost : UInt32 → Bool) : ℕ → ℤ → Prog (List UInt32) ℤ
  | 0, _ => throw .diverges
  | fuel + 1, esi => do
      let esi ← embed (intOf (esi + 1))
      let r ← nextRand
      if lost r then
        nextKept lost fuel esi
      else
        pure esi

/-- Store the next ID that is not lost. -/
def keepEsi (lost : UInt32 → Bool) (_ : ℕ) :
    ℤ × List UInt32 → Prog (List UInt32) (ℤ × List UInt32)
  | (esi, ESIs) => do
    let draws ← get
    let esi ← nextKept lost (draws.length + 1) esi
    pure (esi, ESIs ++ [UInt32.ofInt esi])

/-- Compute the ESIs, taking losses into account. -/
def getEsisAfterLoss (nESIs : ℕ) (lost : UInt32 → Bool) :
    Prog (List UInt32) (List UInt32) := do
  let (_, ESIs) ← foldRange 0 nESIs (-1, []) (keepEsi lost)
  pure ESIs

/-! ## The table -/

/-- What a slot holds. -/
def slots (xs : Array UInt32) (i : ℕ) : Option UInt32 := xs[i]?.filter (· ≠ hempty)

def home (m : ℕ) (v : UInt32) : ℕ := v.toNat % m

/-- The table holds the IDs in a list. -/
structure Tabulates (m : ℕ) (xs : Array UInt32) (ids : List UInt32) : Prop where
  size_eq : xs.size = m
  reachable : Reachable m (home m) (slots xs)
  used_eq : used m (slots xs) = ids.length
  mem_iff : ∀ v, (∃ i < m, slots xs i = some v) ↔ v ∈ ids

variable {m n i j : ℕ} {xs : Array UInt32} {v : UInt32} {ids draws rest : List UInt32}

theorem slots_eq_some : slots xs i = some v ↔ xs[i]? = some v ∧ v ≠ hempty := by
  simp [slots, Option.filter_eq_some_iff]

theorem slots_eq_none (hi : i < xs.size) : slots xs i = none ↔ xs[i]? = some hempty := by
  simp [slots, Option.filter_eq_none_iff, hi]

theorem slots_set (hi : i < xs.size) (hv : v ≠ hempty) :
    slots (xs.setIfInBounds i v) = Function.update (slots xs) i (some v) := by
  funext l
  by_cases hl : l = i
  · subst hl
    rw [Function.update_self, slots_eq_some]
    exact ⟨by simp [hi], hv⟩
  · rw [Function.update_of_ne hl, slots, slots, Array.getElem?_setIfInBounds_ne (Ne.symm hl)]

theorem lowBits_ne (r : UInt32) : lowBits r ≠ hempty := by
  intro heq
  have hle : (lowBits r).toNat ≤ 0xffffff := by
    rw [lowBits, UInt32.toNat_and]
    exact Nat.and_le_right
  rw [heq] at hle
  exact absurd hle (by decide)

theorem slot_home_zero (m : ℕ) (v : UInt32) : slot m (home m) v 0 = v.toNat % m := by
  rw [slot, home, Nat.add_zero, Nat.mod_mod]

/-- The loop stops where the search does. -/
theorem probe_ends {σ : Type} {s : σ} (hsize : xs.size = m) (hv : v ≠ hempty)
    (h : Stops m (home m) (slots xs) v j) {fuel l : ℕ} (hle : l ≤ j) (hfuel : j < fuel + l) :
    Ends (probe xs v fuel (slot m (home m) v l)) s fun out s' =>
      (out.1 = true ↔ slots xs (slot m (home m) v j) = some v) ∧
        out.2 = slot m (home m) v j ∧ s' = s := by
  induction fuel generalizing l with
  | zero => omega
  | succ fuel ih =>
      have hm : 0 < m := Nat.zero_lt_of_lt h.lt
      have hlt : slot m (home m) v l < xs.size := hsize.symm ▸ slot_lt hm
      unfold probe
      rw [ends_bind, ends_readArray]
      refine ⟨_, Array.getElem?_eq_getElem hlt, ?_⟩
      rcases hle.lt_or_eq with hbefore | rfl
      · obtain ⟨hused, hother⟩ := h.before l hbefore
        have hne : xs[slot m (home m) v l] ≠ hempty := by
          intro heq
          exact hused ((slots_eq_none hlt).mpr (by rw [Array.getElem?_eq_getElem hlt, heq]))
        have hne' : xs[slot m (home m) v l] ≠ v := by
          intro heq
          exact hother (slots_eq_some.mpr ⟨by rw [Array.getElem?_eq_getElem hlt, heq], hv⟩)
        rw [if_pos hne, if_neg hne', hsize, ← slot_succ hm]
        exact ih hbefore (by omega)
      · rcases h.stop with hnone | hsome
        · have hfree := (slots_eq_none hlt).mp hnone
          rw [Array.getElem?_eq_getElem hlt, Option.some_inj] at hfree
          rw [if_neg (not_not.mpr hfree), hnone]
          exact ends_pure.mpr ⟨by simp, rfl, rfl⟩
        · have hfound := (slots_eq_some.mp hsome).1
          rw [Array.getElem?_eq_getElem hlt, Option.some_inj] at hfound
          rw [if_pos (hfound.symm ▸ hv), if_pos hfound, hsome]
          exact ends_pure.mpr ⟨by simp, rfl, rfl⟩

theorem Tabulates.empty (m : ℕ) : Tabulates m (Array.replicate m hempty) [] where
  size_eq := Array.size_replicate
  reachable := fun i hi k hk => by
    obtain ⟨hget, hne⟩ := slots_eq_some.mp hk
    rw [Array.getElem?_replicate, if_pos hi] at hget
    exact absurd (Option.some.inj hget).symm hne
  used_eq := by
    have hnone : ∀ i < m, slots (Array.replicate m hempty) i = none := fun i hi =>
      (slots_eq_none (by simpa using hi)).mpr (by simp [hi])
    rw [used, List.length_nil, Finset.card_eq_zero]
    apply Finset.filter_false_of_mem
    intro i hi
    rw [hnone i (Finset.mem_range.mp hi)]
    exact Bool.false_ne_true
  mem_iff := fun v => by
    constructor
    · rintro ⟨i, hi, hv⟩
      obtain ⟨hget, hne⟩ := slots_eq_some.mp hv
      rw [Array.getElem?_replicate, if_pos hi] at hget
      exact absurd (Option.some.inj hget).symm hne
    · intro hv
      cases hv

/-- A new ID goes where the search for it has stopped. -/
theorem Tabulates.insert (hT : Tabulates m xs ids) (hv : v ≠ hempty)
    (h : Stops m (home m) (slots xs) v j) (hnew : v ∉ ids) :
    xs[slot m (home m) v j]? = some hempty ∧
      Tabulates m (xs.setIfInBounds (slot m (home m) v j) v) (ids ++ [v]) := by
  have hm : 0 < m := Nat.zero_lt_of_lt h.lt
  have hlt : slot m (home m) v j < xs.size := hT.size_eq.symm ▸ slot_lt hm
  have hnone : slots xs (slot m (home m) v j) = none := by
    rcases h.stop with hnone | hsome
    · exact hnone
    · exact absurd ((hT.mem_iff v).mp ⟨_, slot_lt hm, hsome⟩) hnew
  refine ⟨(slots_eq_none hlt).mp hnone, ?_⟩
  have hset := slots_set hlt hv
  exact {
    size_eq := by rw [Array.size_setIfInBounds, hT.size_eq]
    reachable := hset.symm ▸ hT.reachable.update h
    used_eq := by
      rw [hset, used_update (slot_lt hm) hnone, hT.used_eq, List.length_append]
      rfl
    mem_iff := fun u => by
      rw [hset, List.mem_append, List.mem_singleton, ← hT.mem_iff u]
      constructor
      · rintro ⟨i, hi, hu⟩
        by_cases heq : i = slot m (home m) v j
        · rw [heq, Function.update_self] at hu
          exact Or.inr (Option.some.inj hu).symm
        · rw [Function.update_of_ne heq] at hu
          exact Or.inl ⟨i, hi, hu⟩
      · rintro (⟨i, hi, hu⟩ | rfl)
        · refine ⟨i, hi, ?_⟩
          rw [Function.update_of_ne, hu]
          rintro rfl
          rw [hnone] at hu
          cases hu
        · exact ⟨_, slot_lt hm, Function.update_self _ _ _⟩ }

/-! ## The IDs -/

/-- Each search stops as long as a slot is free. -/
theorem Tabulates.exists_stops (hT : Tabulates m xs ids) (hlt : ids.length < m) (v : UInt32) :
    ∃ j, Stops m (home m) (slots xs) v j :=
  LinearProbing.exists_stops (exists_free (hT.used_eq.symm ▸ hlt)) v

/-- A known ID is drawn in vain; a new one is returned with its slot. -/
theorem propose_cons (hT : Tabulates m xs ids) {r : UInt32}
    (hj : Stops m (home m) (slots xs) (lowBits r) j) (fuel : ℕ) (draws : List UInt32) :
    propose xs (fuel + 1) (r :: draws) =
      if lowBits r ∈ ids then propose xs fuel draws
      else .ok ((lowBits r, slot m (home m) (lowBits r) j), draws) := by
  have hfound := (hT.reachable.stops_iff hj).trans (hT.mem_iff (lowBits r))
  have hprobe := probe_ends (s := draws) hT.size_eq (lowBits_ne r) hj (Nat.zero_le j)
    (show j < xs.size + 1 + 0 by rw [hT.size_eq]; have := hj.lt; omega)
  rw [slot_home_zero, hT.size_eq] at hprobe
  obtain ⟨⟨retry, hidx⟩, s, hrun, hretry, rfl, hs⟩ := hprobe
  rw [hs] at hrun
  rw [hfound] at hretry
  show (probe xs (lowBits r) (xs.size + 1) ((lowBits r).toNat % xs.size) >>=
    fun out => if out.1 then propose xs fuel else pure (lowBits r, out.2)) draws = _
  rw [hT.size_eq, run_bind hrun]
  by_cases hmem : lowBits r ∈ ids
  · rw [if_pos hmem, if_pos (hretry.mpr hmem)]
  · rw [if_neg hmem, if_neg fun h => hmem (hretry.mp h)]
    rfl

/-- Drawing goes on up to the first new ID. -/
theorem propose_ends (hT : Tabulates m xs ids) (hlt : ids.length < m) {fuel : ℕ}
    (hfuel : draws.length < fuel) (hnew : ∃ r ∈ draws, lowBits r ∉ ids) :
    Ends (propose xs fuel) draws fun out rest => ∃ known r j, draws = known ++ r :: rest ∧
      (∀ x ∈ known, lowBits x ∈ ids) ∧ lowBits r ∉ ids ∧ out.1 = lowBits r ∧
        Stops m (home m) (slots xs) (lowBits r) j ∧ out.2 = slot m (home m) (lowBits r) j := by
  induction draws generalizing fuel with
  | nil =>
      obtain ⟨r, hr, -⟩ := hnew
      cases hr
  | cons r draws ih =>
      obtain ⟨fuel, rfl⟩ := Nat.exists_eq_succ_of_ne_zero (Nat.ne_zero_of_lt hfuel)
      obtain ⟨j, hj⟩ := hT.exists_stops hlt (lowBits r)
      have hrun := propose_cons hT hj fuel draws
      by_cases hmem : lowBits r ∈ ids
      · rw [if_pos hmem] at hrun
        rw [Nat.succ_eq_add_one, Ends, hrun]
        have hrest : ∃ x ∈ draws, lowBits x ∉ ids := by
          obtain ⟨x, hx, hnot⟩ := hnew
          rcases List.mem_cons.mp hx with rfl | hx
          · exact absurd hmem hnot
          · exact ⟨x, hx, hnot⟩
        apply (ih (Nat.lt_of_succ_lt_succ hfuel) hrest).mono
        rintro out rest ⟨known, x, j', rfl, hknown, hx⟩
        refine ⟨r :: known, x, j', rfl, fun y hy => ?_, hx⟩
        rcases List.mem_cons.mp hy with rfl | hy
        · exact hmem
        · exact hknown y hy
      · rw [if_neg hmem] at hrun
        exact ⟨_, _, hrun, [], r, j, rfl, fun x hx => absurd hx List.not_mem_nil, hmem, rfl, hj,
          rfl⟩

/-- It goes on until the draws run out when there is none. -/
theorem propose_endless (hT : Tabulates m xs ids) (hlt : ids.length < m) {fuel : ℕ}
    (hknown : ∀ r ∈ draws, lowBits r ∈ ids) : Faults (propose xs fuel) draws .diverges := by
  induction fuel generalizing draws with
  | zero => rfl
  | succ fuel ih =>
      cases draws with
      | nil => rfl
      | cons r draws =>
          obtain ⟨j, hj⟩ := hT.exists_stops hlt (lowBits r)
          rw [Faults, propose_cons hT hj, if_pos (hknown r List.mem_cons_self)]
          exact ih fun x hx => hknown x (List.mem_cons_of_mem _ hx)

/-- The different IDs that are drawn, in the order of their first draws. -/
def drawn (draws : List UInt32) : List UInt32 := (draws.map lowBits).eraseDups

theorem drawn_snoc (l : List UInt32) (r : UInt32) :
    drawn (l ++ [r]) = if lowBits r ∈ drawn l then drawn l else drawn l ++ [lowBits r] := by
  rw [drawn, List.map_append, List.eraseDups_append, ← drawn]
  simp only [List.map_cons, List.map_nil, drawn, List.mem_eraseDups]
  split_ifs with hmem
  · simp [List.cons_removeAll, hmem]
  · simp [List.cons_removeAll, hmem, List.eraseDups_cons]

/-- Draws of known IDs add nothing. -/
theorem drawn_append_known {l known : List UInt32} (h : ∀ x ∈ known, lowBits x ∈ drawn l) :
    drawn (l ++ known) = drawn l := by
  induction known generalizing l with
  | nil => rw [List.append_nil]
  | cons x known ih =>
      have hx : drawn (l ++ [x]) = drawn l := by
        rw [drawn_snoc, if_pos (h x List.mem_cons_self)]
      rw [← List.singleton_append, ← List.append_assoc, ih, hx]
      rw [hx]
      exact fun y hy => h y (List.mem_cons_of_mem _ hy)

theorem drawn_append (l more : List UInt32) : ∃ new, drawn (l ++ more) = drawn l ++ new := by
  rw [drawn, List.map_append, List.eraseDups_append]
  exact ⟨_, rfl⟩

theorem drawn_nodup (l : List UInt32) : (drawn l).Nodup := by
  induction l using List.reverseRecOn with
  | nil => exact List.nodup_nil
  | append_singleton l r ih =>
      rw [drawn_snoc]
      split_ifs with hmem
      · exact ih
      · exact List.nodup_append.mpr ⟨ih, List.nodup_singleton _, by
          rintro x hx y hy rfl
          exact hmem (List.mem_singleton.mp hy ▸ hx)⟩

/-- The IDs that a function finds in the numbers drawn so far, once there are enough. -/
structure Received (f : List UInt32 → List UInt32) (n : ℕ) (draws ids rest : List UInt32) :
    Prop where
  length_eq : ids.length = n
  prefix_eq : ∃ done, draws = done ++ rest ∧ f done = ids ∧
    ∀ d r, done = d ++ [r] → (f d).length < n

section Unique

variable {f : List UInt32 → List UInt32} {a b ids' rest' : List UInt32}

/-- Nothing is taken of what comes after enough numbers, where more numbers never take
back what was found before. -/
theorem Received.rest_eq (hf : ∀ l more, (f l).length ≤ (f (l ++ more)).length)
    (h : Received f n (a ++ b) ids rest) (ha : n ≤ (f a).length) : ∃ l, rest = l ++ b := by
  obtain ⟨-, done, hdraws, -, hneeded⟩ := h
  rcases List.append_eq_append_iff.mp hdraws with ⟨l, rfl, hb⟩ | ⟨l, rfl, hrest⟩
  · rcases List.eq_nil_or_concat l with rfl | ⟨l, r, rfl⟩
    · exact ⟨[], by rw [hb]; rfl⟩
    · have hless := hneeded (a ++ l) r (by simp)
      have hmore := hf a l
      omega
  · exact ⟨l, hrest⟩

theorem Received.unique (hf : ∀ l more, (f l).length ≤ (f (l ++ more)).length)
    (h : Received f n draws ids rest) (h' : Received f n draws ids' rest') :
    ids = ids' ∧ rest = rest' := by
  obtain ⟨hlen, done, rfl, rfl, -⟩ := id h
  obtain ⟨hlen', done', heq, rfl, -⟩ := id h'
  obtain ⟨l', hl'⟩ := h'.rest_eq hf hlen.ge
  obtain ⟨l, hl⟩ := (heq ▸ h).rest_eq hf hlen'.ge
  have hrest : rest = rest' := by
    have hsum := congrArg List.length hl
    have hsum' := congrArg List.length hl'
    rw [List.length_append] at hsum hsum'
    have hnil : l = [] := List.length_eq_zero_iff.mp (by omega)
    rw [hl, hnil, List.nil_append]
  subst hrest
  exact ⟨by rw [List.append_cancel_right heq], rfl⟩

end Unique

/-- One more ID, found in the last of some draws. -/
theorem Received.snoc {f : List UInt32 → List UInt32} {known : List UInt32} {r : UInt32}
    (h : Received f n draws ids (known ++ r :: rest)) {new : UInt32}
    (hknown : ∀ done, f done = ids → f (done ++ known) = ids)
    (hnew : ∀ done, draws = done ++ known ++ r :: rest → f (done ++ known) = ids →
      f (done ++ known ++ [r]) = ids ++ [new]) :
    Received f (n + 1) draws (ids ++ [new]) rest := by
  obtain ⟨hlen, done, rfl, hdone, -⟩ := h
  have hsame := hknown done hdone
  refine ⟨by rw [List.length_append, hlen]; rfl, done ++ known ++ [r], by simp, ?_, ?_⟩
  · exact hnew done (List.append_assoc done known _).symm hsame
  · intro d x heq
    obtain ⟨rfl, -⟩ := List.append_inj' heq rfl
    rw [hsame, hlen]
    exact Nat.lt_succ_self n

/-- After `i` rounds the table holds the IDs that were drawn so far. -/
structure Progress (m : ℕ) (draws : List UInt32) (i : ℕ) (out : Array UInt32 × List UInt32)
    (rest : List UInt32) : Prop where
  tabulates : Tabulates m out.1 out.2
  received : Received drawn i draws out.2 rest

theorem Progress.drawEsi_ends {i : ℕ} {out : Array UInt32 × List UInt32}
    (h : Progress m draws i out rest) (him : i < m) (henough : i < (drawn draws).length) :
    Ends (drawEsi i out) rest (Progress m draws (i + 1)) := by
  obtain ⟨xs, ids⟩ := out
  obtain ⟨hT, hreceived⟩ := h
  dsimp only at hT hreceived
  have hlen := hreceived.length_eq
  have hnew : ∃ r ∈ rest, lowBits r ∉ ids := by
    obtain ⟨done, rfl, hdone, -⟩ := hreceived.prefix_eq
    by_contra hall
    have hknown : ∀ x ∈ rest, lowBits x ∈ drawn done := by
      intro x hx
      by_contra hnot
      exact hall ⟨x, hx, hdone ▸ hnot⟩
    rw [drawn_append_known hknown, hdone] at henough
    omega
  unfold drawEsi
  rw [ends_bind, ends_get]
  apply (propose_ends hT (by omega) (Nat.lt_succ_self _) hnew).bind
  rintro ⟨v, hidx⟩ rest' ⟨known, r, j, rfl, hknown, hnot, rfl, hj, rfl⟩
  obtain ⟨hfree, hT'⟩ := hT.insert (lowBits_ne r) hj hnot
  have hlt := (Array.getElem?_eq_some_iff.mp hfree).1
  rw [ends_bind, ends_readArray]
  refine ⟨_, hfree, ?_⟩
  rw [ends_bind, ends_ensure, ends_bind, ends_writeArray]
  refine ⟨rfl, hlt, ends_pure.mpr ⟨hT', hreceived.snoc ?_ ?_⟩⟩
  · rintro done rfl
    exact drawn_append_known hknown
  · rintro done - hdone
    rw [drawn_snoc, hdone, if_neg hnot]

/-- When all that was drawn is in the table, drawing has no end. -/
theorem Progress.drawEsi_endless {out : Array UInt32 × List UInt32}
    (h : Progress m draws (drawn draws).length out rest) (hm : (drawn draws).length < m) :
    Faults (drawEsi (drawn draws).length out) rest .diverges := by
  obtain ⟨xs, ids⟩ := out
  obtain ⟨hT, hlen, done, hdraws, hdone, -⟩ := h
  dsimp only at hT hlen hdone
  have hids : drawn draws = ids := by
    obtain ⟨new, hnew⟩ := drawn_append done rest
    have hsum := congrArg List.length hnew
    rw [← hdraws, List.length_append, hdone, hlen] at hsum
    have hnil : new = [] := List.length_eq_zero_iff.mp (by omega)
    rw [hdraws, hnew, hdone, hnil, List.append_nil]
  have hknown : ∀ r ∈ rest, lowBits r ∈ ids := fun r hr => by
    rw [← hids, drawn, List.mem_eraseDups, hdraws, List.map_append]
    exact List.mem_append_right _ (List.mem_map_of_mem hr)
  unfold drawEsi
  rw [faults_bind (a := rest) rfl]
  exact (propose_endless hT (hlen ▸ hm) hknown).bind _

theorem progress_init (m : ℕ) (draws : List UInt32) :
    Progress m draws 0 (Array.replicate m hempty, []) draws :=
  ⟨Tabulates.empty m, rfl, [], rfl, rfl, by simp⟩

theorem getRandomEsis_eq (hint : 3 * n < 2 ^ 31) :
    getRandomEsis n = foldRange 0 n (Array.replicate (3 * n) hempty, []) drawEsi >>=
      fun out => pure out.2 := by
  have hint' : intOf (3 * n) = .ok (3 * n) := by
    have h := intOf_natCast hint
    rwa [Nat.cast_mul] at h
  rw [getRandomEsis, hint']
  rfl

/-- The IDs are the first different ones that are drawn, if so many are drawn. -/
theorem getRandomEsis_ends (hint : 3 * n < 2 ^ 31) (Q : List UInt32 → List UInt32 → Prop)
    (hQ : ∀ ids rest, Received drawn n draws ids rest → Q ids rest) :
    Ends (getRandomEsis n) draws Q ↔ n ≤ (drawn draws).length := by
  have hloop := foldRange_ends_iff n (Progress (3 * n) draws) (progress_init _ draws)
    (fun i _ _ hi henough h => h.drawEsi_ends (by omega) henough)
    (fun _ _ hlt h => h.drawEsi_endless (by omega)) (fun out rest => Q out.2 rest)
    fun out rest h => hQ out.2 rest h.received
  rw [← hloop, getRandomEsis_eq hint, ends_bind]
  exact ⟨fun h => h.mono fun _ _ h => ends_pure.mp h, fun h => h.mono fun _ _ h => ends_pure.mpr h⟩

/-- The IDs that are not lost: the numbers of their draws. -/
def kept (lost : UInt32 → Bool) (draws : List UInt32) : List UInt32 :=
  (draws.zipIdx.filter fun p => !lost p.1).map fun p => UInt32.ofNat p.2

variable {lost : UInt32 → Bool}

theorem kept_append (l more : List UInt32) : kept lost (l ++ more) = kept lost l ++
    ((more.zipIdx l.length).filter fun p => !lost p.1).map fun p => UInt32.ofNat p.2 := by
  rw [kept, List.zipIdx_append, List.filter_append, List.map_append, Nat.zero_add]
  rfl

theorem kept_append_lost {l known : List UInt32} (h : ∀ x ∈ known, lost x = true) :
    kept lost (l ++ known) = kept lost l := by
  have hnone : (known.zipIdx l.length).filter (fun p => !lost p.1) = [] := by
    rw [List.filter_eq_nil_iff]
    rintro ⟨x, i⟩ hx
    simp [h x (List.fst_mem_of_mem_zipIdx hx)]
  rw [kept_append, hnone, List.map_nil, List.append_nil]

theorem kept_snoc {l : List UInt32} {r : UInt32} (h : lost r = false) :
    kept lost (l ++ [r]) = kept lost l ++ [UInt32.ofNat l.length] := by
  rw [kept_append]
  simp [h]

theorem length_kept (l : List UInt32) : (kept lost l).length = l.countP fun r => !lost r := by
  rw [kept, List.length_map, ← List.countP_eq_length_filter,
    show (fun p : UInt32 × ℕ => !lost p.1) = (fun r => !lost r) ∘ Prod.fst from rfl,
    ← List.countP_map, List.zipIdx_map_fst]

theorem nextKept_ends {fuel : ℕ} {esi : ℤ} (hfuel : draws.length < fuel) (hpos : -1 ≤ esi)
    (hlt : esi + draws.length < 2 ^ 31) (hkept : ∃ r ∈ draws, lost r = false) :
    Ends (nextKept lost fuel esi) draws fun e rest => ∃ known r, draws = known ++ r :: rest ∧
      (∀ x ∈ known, lost x = true) ∧ lost r = false ∧ e = esi + known.length + 1 := by
  induction fuel generalizing draws esi with
  | zero => omega
  | succ fuel ih =>
      cases draws with
      | nil =>
          obtain ⟨r, hr, -⟩ := hkept
          cases hr
      | cons r draws =>
          rw [List.length_cons] at hlt hfuel
          have hint : intOf (esi + 1) = .ok (esi + 1) :=
            intOf_eq_ok.mpr ⟨⟨by omega, by omega⟩, rfl⟩
          unfold nextKept
          rw [ends_bind, ends_embed]
          refine ⟨_, hint, ?_⟩
          show Ends (if lost r then nextKept lost fuel (esi + 1) else pure (esi + 1)) draws _
          cases hr : lost r with
          | false => exact ends_pure.mpr ⟨[], r, rfl, fun x hx => absurd hx List.not_mem_nil, hr,
              by simp⟩
          | true =>
              have hrest : ∃ x ∈ draws, lost x = false := by
                obtain ⟨x, hx, hnot⟩ := hkept
                rcases List.mem_cons.mp hx with rfl | hx
                · rw [hr] at hnot
                  cases hnot
                · exact ⟨x, hx, hnot⟩
              apply (@ih draws (esi + 1) (by omega) (by omega) (by omega) hrest).mono
              rintro e rest ⟨known, x, rfl, hknown, hx, rfl⟩
              refine ⟨r :: known, x, rfl, fun y hy => ?_, hx, ?_⟩
              · rcases List.mem_cons.mp hy with rfl | hy
                · exact hr
                · exact hknown y hy
              · rw [List.length_cons]
                omega

theorem nextKept_endless {fuel : ℕ} {esi : ℤ} (hpos : -1 ≤ esi)
    (hlt : esi + draws.length + 1 < 2 ^ 31) (hlost : ∀ r ∈ draws, lost r = true) :
    Faults (nextKept lost fuel esi) draws .diverges := by
  induction fuel generalizing draws esi with
  | zero => rfl
  | succ fuel ih =>
      have hint : intOf (esi + 1) = .ok (esi + 1) := intOf_eq_ok.mpr ⟨⟨by omega, by omega⟩, rfl⟩
      unfold nextKept
      rw [hint]
      cases draws with
      | nil => rfl
      | cons r draws =>
          rw [List.length_cons] at hlt
          push_cast at hlt
          show Faults (if lost r then nextKept lost fuel (esi + 1) else pure (esi + 1)) draws _
          rw [if_pos (hlost r List.mem_cons_self)]
          exact ih (by omega) (by omega) fun x hx => hlost x (List.mem_cons_of_mem _ hx)

/-- After `i` rounds the last ID is the number of the last draw. -/
structure Counted (lost : UInt32 → Bool) (draws : List UInt32) (i : ℕ) (out : ℤ × List UInt32)
    (rest : List UInt32) : Prop where
  received : Received (kept lost) i draws out.2 rest
  esi_eq : out.1 = (draws.length : ℤ) - rest.length - 1

theorem Counted.keepEsi_ends {i : ℕ} {out : ℤ × List UInt32} (h : Counted lost draws i out rest)
    (hlt : draws.length < 2 ^ 31) (henough : i < (kept lost draws).length) :
    Ends (keepEsi lost i out) rest (Counted lost draws (i + 1)) := by
  obtain ⟨esi, ids⟩ := out
  obtain ⟨hreceived, rfl⟩ := h
  dsimp only at hreceived
  have hlen := hreceived.length_eq
  obtain ⟨done, hdraws, hdone, -⟩ := hreceived.prefix_eq
  have hsum : draws.length = done.length + rest.length := by rw [hdraws, List.length_append]
  have hkept : ∃ r ∈ rest, lost r = false := by
    by_contra hall
    have hknown : ∀ x ∈ rest, lost x = true := by
      intro x hx
      by_contra hnot
      exact hall ⟨x, hx, Bool.not_eq_true _ ▸ hnot⟩
    rw [hdraws, kept_append_lost hknown, hdone] at henough
    omega
  unfold keepEsi
  rw [ends_bind, ends_get]
  apply (nextKept_ends (Nat.lt_succ_self _) (by omega) (by omega) hkept).bind
  rintro _ rest' ⟨known, r, rfl, hknown, hr, rfl⟩
  refine ends_pure.mpr ⟨hreceived.snoc (r := r) ?_ ?_, ?_⟩
  · rintro done' rfl
    exact kept_append_lost hknown
  · rintro done' hdraws' hsame
    have hlen' : draws.length = done'.length + known.length + (rest'.length + 1) := by
      rw [hdraws', List.length_append, List.length_append, List.length_cons]
    have hesi : (draws.length : ℤ) - (known ++ r :: rest').length - 1 + known.length + 1 =
        ((done' ++ known).length : ℕ) := by
      rw [List.length_append, List.length_append, List.length_cons]
      push_cast
      omega
    rw [kept_snoc hr, hsame, hesi, ofInt_natCast]
  · rw [List.length_append, List.length_cons] at hsum ⊢
    push_cast
    omega

/-- When all that was not lost is stored, counting has no end. -/
theorem Counted.keepEsi_endless {out : ℤ × List UInt32}
    (h : Counted lost draws (kept lost draws).length out rest) (hlt : draws.length < 2 ^ 31) :
    Faults (keepEsi lost (kept lost draws).length out) rest .diverges := by
  obtain ⟨esi, ids⟩ := out
  obtain ⟨⟨hlen, done, hdraws, hdone, -⟩, rfl⟩ := h
  dsimp only at hlen hdone
  have hsum : draws.length = done.length + rest.length := by rw [hdraws, List.length_append]
  have hlost : ∀ r ∈ rest, lost r = true := by
    rw [length_kept, hdraws, List.countP_append, ← length_kept, hdone] at hlen
    have hnone := List.countP_eq_zero.mp (by omega : rest.countP (fun r => !lost r) = 0)
    intro r hr
    simpa using hnone r hr
  have hesi : -1 ≤ (draws.length : ℤ) - rest.length - 1 := by omega
  unfold keepEsi
  rw [faults_bind (a := rest) rfl]
  exact (nextKept_endless hesi (by omega) hlost).bind _

theorem counted_init (lost : UInt32 → Bool) (draws : List UInt32) :
    Counted lost draws 0 (-1, []) draws :=
  ⟨⟨rfl, [], rfl, rfl, by simp⟩, by simp⟩

/-- The IDs are the first ones that are not lost, if there are so many. -/
theorem getEsisAfterLoss_ends (hlt : draws.length < 2 ^ 31)
    (Q : List UInt32 → List UInt32 → Prop)
    (hQ : ∀ ids rest, Received (kept lost) n draws ids rest → Q ids rest) :
    Ends (getEsisAfterLoss n lost) draws Q ↔ n ≤ (kept lost draws).length := by
  have hloop := foldRange_ends_iff n (Counted lost draws) (counted_init lost draws)
    (fun i _ _ _ henough h => h.keepEsi_ends hlt henough)
    (fun _ _ _ h => h.keepEsi_endless hlt) (fun out rest => Q out.2 rest)
    fun out rest h => hQ out.2 rest h.received
  rw [← hloop, getEsisAfterLoss, ends_bind]
  exact ⟨fun h => h.mono fun _ _ h => ends_pure.mp h, fun h => h.mono fun _ _ h => ends_pure.mpr h⟩

end TvRQ
