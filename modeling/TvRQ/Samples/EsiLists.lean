/-
# Lists of IDs on the command line

The programs read lists of IDs and of ranges of IDs, separated by commas.
`parse_esis` of the C programs takes numbers from the text with `strtol` and
puts the IDs in an array that grows; `file_enc_dec.cpp` takes the text apart,
writes all IDs out and reads them again.  Both read the same IDs from every list
whose numbers have no leading zeros.
-/

import TvRQ.Api.OutCompile
import TvRQ.Lib.Text

namespace TvRQ

open Imperative Text

/-! ## In C -/

/-- The array of IDs; its size is what is reserved. -/
structure EsiArray where
  arrSz : ℕ
  arr : Array UInt32

/-- A `long` result; a signed overflow is a fault. -/
def longOf (x : ℤ) : Except Fault ℤ :=
  if -2 ^ 63 ≤ x ∧ x < 2 ^ 63 then .ok x else .error .overflow

/-- Make room for one more ID.  What is new in a larger array may be anything. -/
def EsiArray.reserve {σ : Type} (a : EsiArray) : Prog σ (Array UInt32) :=
  if a.arrSz = a.arr.size then do
    let reservedSz ← embed (intOf (a.arr.size * 2))
    pure (a.arr ++ Array.replicate (reservedSz.toNat - a.arr.size) 0)
  else
    pure a.arr

/-- Add an ID to the array. -/
def EsiArray.append {σ : Type} (a : EsiArray) (val : UInt32) : Prog σ EsiArray := do
  let arr ← a.reserve
  let arr ← writeArray arr a.arrSz val
  let arrSz ← embed (intOf (a.arrSz + 1))
  pure ⟨arrSz.toNat, arr⟩

/-- The loop over a range, with `n` IDs left from `v` on. -/
def appendRange {σ : Type} : ℕ → ℤ → EsiArray → Prog σ EsiArray
  | 0, _, a => pure a
  | n + 1, v, a => do
      let a ← a.append (UInt32.ofInt v)
      let v ← embed (longOf (v + 1))
      appendRange n v a

/-- What comes after a number `v`: the end of a range, or anything else. -/
def appendItem {σ : Type} (v : ℤ) (p : List Char) (a : EsiArray) :
    Prog σ (EsiArray × List Char) :=
  if p.head? = some '-' then do
    let (ve, endptr) := strtol 0 p.tail
    let a ← appendRange (ve + 1 - v).toNat v a
    pure (a, endptr)
  else do
    let a ← a.append (UInt32.ofInt v)
    pure (a, p)

/-- Behind a comma, if there is one. -/
def skipComma (p : List Char) : List Char := if p.head? = some ',' then p.tail else p

def parseEsisLoop {σ : Type} : ℕ → List Char → EsiArray → Prog σ EsiArray
  | 0, _, _ => throw .diverges
  | fuel + 1, p, a => do
      let (v, endptr) := strtol 0 p
      if endptr = p then
        pure a
      else do
        let (a, p) ← appendItem v endptr a
        parseEsisLoop fuel (skipComma (p.dropWhile isSpace)) a

def parseEsis {σ : Type} (p : List Char) (a : EsiArray) : Prog σ EsiArray :=
  parseEsisLoop (p.length + 1) p a

/-! ## In C++ -/

/-- Why `expandEsiStr` does not return: an exception of `stoi`, or the overflow of a
counter. -/
inductive ExpandFault
  | invalidArgument
  | outOfRange
  | overflow
  deriving DecidableEq, Repr

/-- `stoi`: the number and what is left of the text. -/
def stoi (s : List Char) : Except ExpandFault (ℤ × List Char) :=
  let (v, endptr) := strtol 10 s
  if endptr = s then .error .invalidArgument
  else if IsInt v then .ok (v, endptr)
  else .error .outOfRange

/-- `to_string`. -/
def toText : ℤ → List Char
  | .ofNat n => Nat.toDigits 10 n
  | .negSucc n => '-' :: Nat.toDigits 10 (n + 1)

/-- The IDs of a range, each with a comma. -/
def expandRange (startR endR : ℤ) : Except ExpandFault (List Char) :=
  if startR ≤ endR ∧ ¬ IsInt (endR + 1) then .error .overflow
  else .ok ((List.range (endR + 1 - startR).toNat).flatMap fun k : ℕ =>
    toText (startR + k) ++ [','])

def expandItem (num : List Char) : Except ExpandFault (List Char) := do
  let num := trim isSpace num
  if '-' ∈ num then do
    let (startR, num) ← stoi num
    let (endR, _) ← stoi (num.dropWhile (· = '-'))
    expandRange startR endR
  else
    pure (num ++ [','])

/-- Expand a list of IDs and ranges into a comma separated list of all IDs. -/
def expandEsiStr (esiStr : List Char) : Except ExpandFault (List Char) := do
  let parts ← (getlines ',' esiStr).mapM expandItem
  pure (parts.flatten.rdropWhile (· = ','))

/-- The number of IDs in a list without ranges. -/
def getESICnt (esiStr : List Char) : Except Fault ℕ := intOfSize (getlines ',' esiStr).length

/-- `atoi`, as it is stored in the array. -/
def atoi (num : List Char) : UInt32 := UInt32.ofInt (strtol 10 num).1

def storeESIs {σ : Type} : ℕ → List (List Char) → Array UInt32 → Prog σ (Array UInt32)
  | _, [], esiArr => pure esiArr
  | i, num :: nums, esiArr => do
      let esiArr ← writeArray esiArr i (atoi num)
      storeESIs (i + 1) nums esiArr

/-- Parse a list without ranges into an array. -/
def parseESIStr {σ : Type} (esiStr : List Char) (esiArr : Array UInt32) :
    Prog σ (Array UInt32) :=
  storeESIs 0 (getlines ',' esiStr) esiArr

/-! ## The lists -/

/-- A number, or two numbers with a minus, and white space around them.  There is none
in front of the minus. -/
inductive Spells : List Char → List ℕ → Prop
  | one {pre post : List Char} {n : ℕ} (hpre : Blank pre) (hpost : Blank post)
      (hn : n < 2 ^ 31) : Spells (pre ++ (Nat.toDigits 10 n ++ post)) [n]
  | range {pre mid post : List Char} {n m : ℕ} (hpre : Blank pre) (hmid : Blank mid)
      (hpost : Blank post) (hn : n < 2 ^ 31) (hm : m + 1 < 2 ^ 31) :
      Spells (pre ++ (Nat.toDigits 10 n ++ '-' :: (mid ++ (Nat.toDigits 10 m ++ post))))
        (List.range' n (m + 1 - n))

/-! ## The array -/

/-- The IDs in the array. -/
structure EsiArray.Holds (a : EsiArray) (ids : List UInt32) : Prop where
  arrSz_eq : a.arrSz = ids.length
  take_eq : a.arr.toList.take ids.length = ids
  reserved_pos : 0 < a.arr.size

section Array

variable {σ : Type} {s : σ} {a : EsiArray} {ids : List UInt32}

theorem EsiArray.Holds.length_le (h : a.Holds ids) : ids.length ≤ a.arr.size := by
  have hlen : (a.arr.toList.take ids.length).length = ids.length := by rw [h.take_eq]
  have hsize : a.arr.toList.length = a.arr.size := rfl
  rw [List.length_take, hsize] at hlen
  omega

theorem take_setIfInBounds {xs : Array UInt32} {i : ℕ} (v : UInt32) (hlt : i < xs.size) :
    (xs.setIfInBounds i v).toList.take (i + 1) = xs.toList.take i ++ [v] := by
  have hlen : i < (xs.toList.set i v).length := by rwa [List.length_set, Array.length_toList]
  rw [Array.toList_setIfInBounds, List.take_add_one, List.getElem?_eq_getElem hlen,
    List.getElem_set_self, List.take_set_of_le le_rfl]
  rfl

/-- An array that is full is made larger. -/
theorem EsiArray.Holds.reserve_ends (h : a.Holds ids) (hlt : ids.length < 2 ^ 30) :
    Ends a.reserve s fun arr s' =>
      ids.length < arr.size ∧ arr.toList.take ids.length = ids ∧ s' = s := by
  have hle := h.length_le
  have hpos := h.reserved_pos
  have hsize := h.arrSz_eq
  unfold EsiArray.reserve
  split_ifs with hfull
  · rw [ends_bind, ends_embed]
    refine ⟨_, intOf_eq_ok.mpr ⟨⟨by omega, by omega⟩, rfl⟩, ends_pure.mpr ⟨?_, ?_, rfl⟩⟩
    · rw [Array.size_append, Array.size_replicate]
      omega
    · rw [Array.toList_append, List.take_append_of_le_length (by simpa using hle), h.take_eq]
  · exact ends_pure.mpr ⟨by omega, h.take_eq, rfl⟩

theorem EsiArray.Holds.append_ends (h : a.Holds ids) (hlt : ids.length < 2 ^ 30) (v : UInt32) :
    Ends (a.append v) s fun a' s' => a'.Holds (ids ++ [v]) ∧ s' = s := by
  unfold EsiArray.append
  apply (h.reserve_ends hlt).bind
  rintro arr _ ⟨hsize, htake, rfl⟩
  rw [h.arrSz_eq, ends_bind, ends_writeArray]
  refine ⟨hsize, ?_⟩
  rw [ends_bind, ends_embed]
  refine ⟨_, intOf_eq_ok.mpr ⟨⟨by omega, by omega⟩, rfl⟩, ends_pure.mpr ⟨?_, rfl⟩⟩
  exact {
    arrSz_eq := by
      rw [List.length_append]
      rfl
    take_eq := by rw [List.length_append, List.length_singleton, take_setIfInBounds v hsize, htake]
    reserved_pos := by
      rw [Array.size_setIfInBounds]
      omega }

/-- The IDs of a range are stored one after the other. -/
theorem EsiArray.Holds.appendRange_ends (h : a.Holds ids) {n v : ℕ}
    (hlt : ids.length + n ≤ 2 ^ 30) (hv : v + n < 2 ^ 63) :
    Ends (appendRange n v a) s fun a' s' =>
      a'.Holds (ids ++ (List.range' v n).map UInt32.ofNat) ∧ s' = s := by
  induction n generalizing a ids v with
  | zero => exact ends_pure.mpr ⟨by simpa using h, rfl⟩
  | succ n ih =>
      unfold appendRange
      apply (h.append_ends (s := s) (by omega) (UInt32.ofInt v)).bind
      rintro a₁ _ ⟨h₁, rfl⟩
      have hlong : longOf (v + 1) = .ok ((v + 1 : ℕ) : ℤ) := if_pos ⟨by omega, by omega⟩
      rw [ends_bind, ends_embed]
      refine ⟨_, hlong, (ih h₁ ?_ (by omega)).mono fun a' s' h' => ?_⟩
      · rw [List.length_append, List.length_singleton]
        omega
      · rw [ofInt_natCast, List.append_assoc, List.singleton_append] at h'
        rwa [List.range'_succ, List.map_cons]

end Array

/-! ## Parsing in C -/

section Parse

variable {σ : Type} {s : σ} {a : EsiArray} {ids : List UInt32} {t rest post : List Char}
  {ns : List ℕ} {Q : EsiArray → σ → Prop}

/-- The end of the list, or the next item. -/
def Behind (rest : List Char) : Prop := rest = [] ∨ ∃ p, rest = ',' :: p

theorem Behind.stop (h : Behind rest) : Stop rest := by
  rcases h with rfl | ⟨p, rfl⟩
  · exact Stop.nil
  · exact Stop.cons (by decide) p

/-- No minus is found behind the white space. -/
theorem Behind.head?_ne (h : Behind rest) (hpost : Blank post) :
    (post ++ rest).head? ≠ some '-' := by
  cases post with
  | nil =>
      rcases h with rfl | ⟨p, rfl⟩
      · simp
      · simp
  | cons c post =>
      intro heq
      cases heq
      exact absurd (hpost _ List.mem_cons_self) (by decide)

theorem Behind.dropWhile_eq (h : Behind rest) (hpost : Blank post) :
    (post ++ rest).dropWhile isSpace = rest := by
  refine dropWhile_append_stop hpost fun c hc => ?_
  rcases h with rfl | ⟨p, rfl⟩
  · cases hc
  · cases hc
    decide

/-- The number that an item begins with is read, and its IDs are stored. -/
theorem Spells.item_ends (h : Spells t ns) (hrest : Behind rest) (ha : a.Holds ids)
    (hlt : ids.length + ns.length ≤ 2 ^ 30) :
    ∃ v p, strtol 0 (t ++ rest) = (v, p) ∧ p ≠ t ++ rest ∧
      Ends (appendItem v p a) s fun out s' =>
        out.1.Holds (ids ++ ns.map UInt32.ofNat) ∧ out.2.dropWhile isSpace = rest ∧ s' = s := by
  cases h with
  | @one pre post n hpre hpost hn =>
      have htext : pre ++ (Nat.toDigits 10 n ++ post) ++ rest =
          pre ++ (Nat.toDigits 10 n ++ (post ++ rest)) := by
        rw [List.append_assoc, List.append_assoc]
      rw [htext]
      refine ⟨n, post ++ rest, strtol_toDigits (.inl rfl) hpre (hpost.stop hrest.stop) (by omega),
        ne_append_toDigits _ _ _, ?_⟩
      rw [appendItem, if_neg (hrest.head?_ne hpost)]
      apply (ha.append_ends (by simpa using hlt) _).bind
      rintro a' _ ⟨ha', rfl⟩
      rw [ofInt_natCast] at ha'
      exact ends_pure.mpr ⟨ha', hrest.dropWhile_eq hpost, rfl⟩
  | @range pre mid post n m hpre hmid hpost hn hm =>
      have htext : pre ++ (Nat.toDigits 10 n ++ '-' :: (mid ++ (Nat.toDigits 10 m ++ post))) ++
          rest = pre ++ (Nat.toDigits 10 n ++
            '-' :: (mid ++ (Nat.toDigits 10 m ++ (post ++ rest)))) := by
        simp only [List.append_assoc, List.cons_append]
      have hend : strtol 0 (mid ++ (Nat.toDigits 10 m ++ (post ++ rest))) =
          ((m : ℤ), post ++ rest) :=
        strtol_toDigits (.inl rfl) hmid (hpost.stop hrest.stop) (by omega)
      have hcount : ((m : ℤ) + 1 - n).toNat = m + 1 - n := by omega
      rw [List.length_range'] at hlt
      rw [htext]
      refine ⟨n, _, strtol_toDigits (.inl rfl) hpre (Stop.cons (by decide) _) (by omega),
        ne_append_toDigits _ _ _, ?_⟩
      rw [appendItem, List.head?_cons, if_pos rfl, List.tail_cons, hend]
      dsimp only
      rw [hcount]
      apply (ha.appendRange_ends hlt (by omega)).bind
      rintro a' _ ⟨ha', rfl⟩
      exact ends_pure.mpr ⟨ha', hrest.dropWhile_eq hpost, rfl⟩

/-- One item is read, and the loop goes on behind the comma. -/
theorem Spells.parse_ends (h : Spells t ns) (hrest : Behind rest) (ha : a.Holds ids)
    (hlt : ids.length + ns.length ≤ 2 ^ 30) {fuel : ℕ}
    (hQ : ∀ a', a'.Holds (ids ++ ns.map UInt32.ofNat) →
      Ends (parseEsisLoop fuel (skipComma rest) a') s Q) :
    Ends (parseEsisLoop (fuel + 1) (t ++ rest) a) s Q := by
  obtain ⟨v, p, hread, hsome, hitem⟩ := h.item_ends (s := s) hrest ha hlt
  unfold parseEsisLoop
  rw [hread]
  dsimp only
  rw [if_neg hsome]
  apply hitem.bind
  rintro ⟨a', p'⟩ _ ⟨ha', hskip, rfl⟩
  dsimp only at hskip ⊢
  rw [hskip]
  exact hQ a' ha'

theorem parseEsisLoop_ends {texts : List (List Char)} {parts : List (List ℕ)}
    (h : List.Forall₂ Spells texts parts) (ha : a.Holds ids)
    (hlt : ids.length + parts.flatten.length ≤ 2 ^ 30) {fuel : ℕ} (hfuel : texts.length < fuel) :
    Ends (parseEsisLoop fuel ([','].intercalate texts) a) s fun a' s' =>
      a'.Holds (ids ++ parts.flatten.map UInt32.ofNat) ∧ s' = s := by
  induction h generalizing a ids fuel with
  | nil =>
      obtain ⟨fuel, rfl⟩ := Nat.exists_eq_succ_of_ne_zero (Nat.ne_zero_of_lt hfuel)
      show Ends (parseEsisLoop (fuel + 1) [] a) s _
      unfold parseEsisLoop
      rw [strtol_nil]
      exact ends_pure.mpr ⟨by simpa using ha, rfl⟩
  | @cons t ns texts parts ht htexts ih =>
      obtain ⟨fuel, rfl⟩ := Nat.exists_eq_succ_of_ne_zero (Nat.ne_zero_of_lt hfuel)
      rw [List.flatten_cons, List.length_append] at hlt
      have hrest : ∃ rest, [','].intercalate (t :: texts) = t ++ rest ∧ Behind rest ∧
          skipComma rest = [','].intercalate texts := by
        cases texts with
        | nil => exact ⟨[], by simp, Or.inl rfl, rfl⟩
        | cons t' texts => exact ⟨',' :: [','].intercalate (t' :: texts), by simp,
            Or.inr ⟨_, rfl⟩, rfl⟩
      obtain ⟨rest, hsplit, hbehind, hskip⟩ := hrest
      rw [hsplit]
      refine ht.parse_ends hbehind ha (by omega) fun a' ha' => ?_
      rw [hskip]
      refine (ih ha' ?_ (Nat.lt_of_succ_lt_succ hfuel)).mono fun a'' s' h => ?_
      · rw [List.length_append, List.length_map]
        omega
      · rwa [List.flatten_cons, List.map_append, ← List.append_assoc]

end Parse

/-! ## Parsing in C++ -/

section Expand

variable {σ : Type} {s : σ} {t rest mid : List Char} {n : ℕ} {ns ids : List ℕ}

theorem comma_not_mem (n : ℕ) : ',' ∉ Nat.toDigits 10 n := fun h =>
  absurd (isDigit_toDigits h) (by decide)

theorem minus_not_mem (n : ℕ) : '-' ∉ Nat.toDigits 10 n := fun h =>
  absurd (isDigit_toDigits h) (by decide)

theorem isSpace_toDigits {c : Char} (h : c ∈ Nat.toDigits 10 n) : isSpace c = false :=
  isSpace_of_isDigit (isDigit_toDigits h)

theorem stoi_toDigits (hmid : Blank mid) (hrest : Stop rest) (hn : n < 2 ^ 31) :
    stoi (mid ++ (Nat.toDigits 10 n ++ rest)) = .ok ((n : ℤ), rest) := by
  unfold stoi
  rw [strtol_toDigits (.inr rfl) hmid hrest (by omega)]
  dsimp only
  rw [if_neg (ne_append_toDigits _ _ _), if_pos ⟨by omega, by omega⟩]

theorem expandRange_eq {n m : ℕ} (hm : m + 1 < 2 ^ 31) : expandRange n m =
    .ok ((List.range' n (m + 1 - n)).flatMap fun k => Nat.toDigits 10 k ++ [',']) := by
  have hint : ¬ ((n : ℤ) ≤ m ∧ ¬ IsInt ((m : ℤ) + 1)) := fun h => h.2 ⟨by omega, by omega⟩
  have hcount : ((m : ℤ) + 1 - n).toNat = m + 1 - n := by omega
  unfold expandRange
  rw [if_neg hint, hcount, List.range'_eq_map_range, List.flatMap_map]
  rfl

/-- The white space around a range is removed, and none behind its minus. -/
theorem trim_range {pre post : List Char} {n m : ℕ} (hpre : Blank pre) (hpost : Blank post) :
    trim isSpace (pre ++ (Nat.toDigits 10 n ++ '-' :: (mid ++ (Nat.toDigits 10 m ++ post)))) =
      Nat.toDigits 10 n ++ '-' :: (mid ++ Nat.toDigits 10 m) := by
  have hassoc : Nat.toDigits 10 n ++ '-' :: (mid ++ (Nat.toDigits 10 m ++ post)) =
      (Nat.toDigits 10 n ++ '-' :: (mid ++ Nat.toDigits 10 m)) ++ post := by simp
  have hlast : (Nat.toDigits 10 n ++ '-' :: (mid ++ Nat.toDigits 10 m)).getLast? =
      (Nat.toDigits 10 m).getLast? := by
    rw [← List.singleton_append, ← List.append_assoc, ← List.append_assoc,
      List.getLast?_append_of_ne_nil _ Nat.toDigits_ne_nil]
  rw [hassoc]
  refine trim_append hpre hpost (fun c hc => ?_) (fun c hc => ?_) (by simp)
  · rw [List.head?_append_of_ne_nil _ Nat.toDigits_ne_nil] at hc
    exact isSpace_toDigits (List.mem_of_mem_head? hc)
  · rw [hlast] at hc
    exact isSpace_toDigits (List.mem_of_getLast? hc)

/-- The numbers of an item are written out. -/
theorem Spells.expandItem_eq (h : Spells t ns) :
    expandItem t = .ok (ns.flatMap fun n => Nat.toDigits 10 n ++ [',']) := by
  unfold expandItem
  cases h with
  | @one pre post n hpre hpost hn =>
      rw [trim_append hpre hpost (fun c hc => isSpace_toDigits (List.mem_of_mem_head? hc))
        (fun c hc => isSpace_toDigits (List.mem_of_getLast? hc)) Nat.toDigits_ne_nil]
      dsimp only
      rw [if_neg (minus_not_mem n), List.flatMap_singleton]
      rfl
  | @range pre mid post n m hpre hmid hpost hn hm =>
      have hfirst : stoi (Nat.toDigits 10 n ++ '-' :: (mid ++ Nat.toDigits 10 m)) =
          .ok ((n : ℤ), '-' :: (mid ++ Nat.toDigits 10 m)) :=
        stoi_toDigits Blank.nil (Stop.cons (by decide) _) hn
      have hdrop : ('-' :: (mid ++ Nat.toDigits 10 m)).dropWhile (· = '-') =
          mid ++ Nat.toDigits 10 m := by
        refine dropWhile_append_stop (s := ['-']) (by simp) fun c hc => ?_
        rw [decide_eq_false_iff_not]
        rintro rfl
        rcases List.mem_append.mp (List.mem_of_mem_head? hc) with hmem | hmem
        · exact absurd (hmid _ hmem) (by decide)
        · exact minus_not_mem m hmem
      have hsecond : stoi (mid ++ Nat.toDigits 10 m) = .ok ((m : ℤ), []) := by
        have hread := stoi_toDigits (n := m) hmid Stop.nil (by omega)
        rwa [List.append_nil] at hread
      rw [trim_range hpre hpost]
      dsimp only
      rw [if_pos (by simp), hfirst]
      show (stoi (('-' :: (mid ++ Nat.toDigits 10 m)).dropWhile (· = '-')) >>= fun out =>
        expandRange n out.1) = _
      rw [hdrop, hsecond]
      exact expandRange_eq hm

theorem Spells.not_mem_comma (h : Spells t ns) : ',' ∉ t := by
  have hblank : ∀ {b : List Char}, Blank b → ',' ∉ b := fun hb hmem =>
    absurd (hb _ hmem) (by decide)
  cases h with
  | one hpre hpost => simp [hblank hpre, hblank hpost, comma_not_mem]
  | range hpre hmid hpost => simp [hblank hpre, hblank hmid, hblank hpost, comma_not_mem]

theorem Spells.ne_nil (h : Spells t ns) : t ≠ [] := by
  cases h with
  | one => simp [Nat.toDigits_ne_nil]
  | range => simp

theorem spells_of_mem {texts : List (List Char)} {parts : List (List ℕ)}
    (h : List.Forall₂ Spells texts parts) : ∀ t ∈ texts, ∃ ns, Spells t ns := by
  induction h with
  | nil => exact fun t ht => absurd ht List.not_mem_nil
  | cons ht _ ih =>
      intro t hmem
      rcases List.mem_cons.mp hmem with rfl | hmem
      · exact ⟨_, ht⟩
      · exact ih t hmem

theorem ne_nil_of_spells {texts : List (List Char)} {parts : List (List ℕ)}
    (h : List.Forall₂ Spells texts parts) : ∀ t ∈ texts, t ≠ [] := fun t ht => by
  obtain ⟨ns, hns⟩ := spells_of_mem h t ht
  exact hns.ne_nil

/-- All numbers are in the range of an `int`. -/
theorem lt_of_spells {texts : List (List Char)} {parts : List (List ℕ)}
    (h : List.Forall₂ Spells texts parts) : ∀ n ∈ parts.flatten, n < 2 ^ 31 := by
  induction h with
  | nil => exact fun n hn => absurd hn List.not_mem_nil
  | cons ht _ ih =>
      intro n hn
      rcases List.mem_append.mp (List.flatten_cons ▸ hn) with hn | hn
      · cases ht with
        | one _ _ hlt =>
            obtain rfl := List.mem_singleton.mp hn
            exact hlt
        | range _ _ _ _ hlt =>
            rw [List.mem_range'_1] at hn
            omega
      · exact ih n hn

theorem mapM_expandItem {texts : List (List Char)} {parts : List (List ℕ)}
    (h : List.Forall₂ Spells texts parts) : texts.mapM expandItem =
      .ok (parts.map fun ns => ns.flatMap fun n => Nat.toDigits 10 n ++ [',']) := by
  induction h with
  | nil => rfl
  | cons ht _ ih =>
      rw [List.mapM_cons, ht.expandItem_eq, ih]
      rfl

/-- All numbers are written out, with commas in between. -/
theorem expandEsiStr_eq {texts : List (List Char)} {parts : List (List ℕ)}
    (h : List.Forall₂ Spells texts parts) : expandEsiStr ([','].intercalate texts) =
      .ok ([','].intercalate (parts.flatten.map (Nat.toDigits 10))) := by
  have hcomma : ∀ t ∈ texts, ',' ∉ t := fun t ht => by
    obtain ⟨ns, hns⟩ := spells_of_mem h t ht
    exact hns.not_mem_comma
  have hflat : (parts.map fun ns => ns.flatMap fun n => Nat.toDigits 10 n ++ [',']).flatten =
      (parts.flatten.map (Nat.toDigits 10)).flatMap (· ++ [',']) := by
    rw [List.flatMap_map, ← List.flatMap_def, ← List.flatMap_id (L := parts), List.flatMap_assoc]
    rfl
  unfold expandEsiStr
  rw [getlines_intercalate hcomma (ne_nil_of_spells h), mapM_expandItem h]
  show Except.ok _ = _
  rw [hflat, rdropWhile_flatMap]
  all_goals
    intro t ht
    obtain ⟨n, -, rfl⟩ := List.mem_map.mp ht
  · exact comma_not_mem n
  · exact Nat.toDigits_ne_nil

theorem storeESIs_ends {nums : List (List Char)} {i : ℕ} {arr : Array UInt32}
    (hsize : arr.size = i + nums.length) : Ends (storeESIs i nums arr) s fun arr' s' =>
      arr'.toList = arr.toList.take i ++ nums.map atoi ∧ s' = s := by
  induction nums generalizing i arr with
  | nil =>
      refine ends_pure.mpr ⟨?_, rfl⟩
      rw [List.map_nil, List.append_nil, List.take_of_length_le (by simpa using hsize.le)]
  | cons num nums ih =>
      rw [List.length_cons] at hsize
      have hlt : i < arr.size := by omega
      unfold storeESIs
      rw [ends_bind, ends_writeArray]
      refine ⟨hlt, (ih ?_).mono fun arr' s' h => ?_⟩
      · rw [Array.size_setIfInBounds]
        omega
      · rw [take_setIfInBounds _ hlt] at h
        rwa [List.map_cons, ← List.singleton_append, ← List.append_assoc]

theorem atoi_toDigits (hn : n < 2 ^ 31) : atoi (Nat.toDigits 10 n) = UInt32.ofNat n := by
  have hread := strtol_toDigits (n := n) (.inr rfl) Blank.nil Stop.nil (by omega)
  rw [List.nil_append, List.append_nil] at hread
  rw [atoi, hread, ofInt_natCast]

end Expand

/-! ## The same IDs -/

/-- From every list of at most 2^30 IDs, `parse_esis` adds the IDs to the array, and the
functions of `file_enc_dec.cpp` put the same ones in an array of their number.  A range
ends below 2^31 - 1, as `Spells` says; one that ends there overflows `expandEsiStr`. -/
theorem esiLists_agree {σ : Type} (s : σ) {texts : List (List Char)} {parts : List (List ℕ)}
    (h : List.Forall₂ Spells texts parts) {a : EsiArray} {ids : List UInt32} (ha : a.Holds ids)
    (hlt : ids.length + parts.flatten.length ≤ 2 ^ 30) :
    Ends (parseEsis ([','].intercalate texts) a) s (fun a' _ =>
      a'.Holds (ids ++ parts.flatten.map UInt32.ofNat)) ∧
    ∃ expanded, expandEsiStr ([','].intercalate texts) = .ok expanded ∧
      getESICnt expanded = .ok parts.flatten.length ∧
      ∀ arr : Array UInt32, arr.size = parts.flatten.length →
        Ends (parseESIStr expanded arr) s fun arr' _ =>
          arr'.toList = parts.flatten.map UInt32.ofNat := by
  have hlines : getlines ',' ([','].intercalate (parts.flatten.map (Nat.toDigits 10))) =
      parts.flatten.map (Nat.toDigits 10) := by
    apply getlines_intercalate
    all_goals
      intro t ht
      obtain ⟨n, -, rfl⟩ := List.mem_map.mp ht
    · exact comma_not_mem n
    · exact Nat.toDigits_ne_nil
  refine ⟨?_, _, expandEsiStr_eq h, ?_, fun arr hsize => ?_⟩
  · have hfuel := length_intercalate_ge ',' (ne_nil_of_spells h)
    exact (parseEsisLoop_ends h ha hlt (Nat.lt_succ_of_le hfuel)).mono fun _ _ h => h.1
  · rw [getESICnt, hlines, List.length_map, intOfSize, if_pos (by omega)]
  · unfold parseESIStr
    rw [hlines]
    apply (storeESIs_ends (by rw [List.length_map, hsize, Nat.zero_add])).mono
    rintro arr' _ ⟨hstored, -⟩
    rw [hstored, List.take_zero, List.nil_append, List.map_map]
    exact List.map_congr_left fun n hn => atoi_toDigits (lt_of_spells h n hn)

/-- The text `3, 5- 7` and room for two IDs. -/
theorem esiLists_agree_four :
    Ends (parseEsis ['3', ',', ' ', '5', '-', ' ', '7'] ⟨0, Array.replicate 2 0⟩) () (fun a' _ =>
      a'.Holds [3, 5, 6, 7]) ∧
    ∃ expanded, expandEsiStr ['3', ',', ' ', '5', '-', ' ', '7'] = .ok expanded ∧
      getESICnt expanded = .ok 4 ∧
      ∀ arr : Array UInt32, arr.size = 4 → Ends (parseESIStr expanded arr) () fun arr' _ =>
        arr'.toList = [3, 5, 6, 7] :=
  have hfirst : Spells ([] ++ (Nat.toDigits 10 3 ++ [])) [3] :=
    .one Blank.nil Blank.nil (by decide)
  have hsecond : Spells ([' '] ++ (Nat.toDigits 10 5 ++
      '-' :: ([' '] ++ (Nat.toDigits 10 7 ++ [])))) (List.range' 5 (7 + 1 - 5)) :=
    .range (by decide) (by decide) Blank.nil (by decide) (by decide)
  have hempty : EsiArray.Holds ⟨0, Array.replicate 2 0⟩ [] := ⟨rfl, rfl, by decide⟩
  esiLists_agree () (.cons hfirst (.cons hsecond .nil)) hempty (by decide)

/-- With leading zeros the two programs read different numbers. -/
example : (strtol 0 ['0', '1', '0']).1 = 8 ∧ (strtol 10 ['0', '1', '0']).1 = 10 := by decide

end TvRQ
