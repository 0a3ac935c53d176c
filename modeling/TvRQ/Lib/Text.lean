/-
# Numbers in text

Functions of the standard library that read numbers from text and take text
apart: `strtol`, `getline` with a separator, and trimming.  A number that is
written without leading zeros is read back, whatever blanks stand before it and
whatever follows that is not a digit.  Text is a list of characters.
-/

import Mathlib

namespace Text

/-! ## Reading numbers -/

/-- `isspace`. -/
def isSpace (c : Char) : Bool := c.toNat = 32 || (9 ≤ c.toNat && c.toNat ≤ 13)

/-- The value of a digit or letter, and 36 for any other character. -/
def digitVal (c : Char) : ℕ :=
  if c.isDigit then c.toNat - 48
  else if c.isLower then c.toNat - 87
  else if c.isUpper then c.toNat - 55
  else 36

def isDigit (base : ℕ) (c : Char) : Bool := digitVal c < base

def digitsVal (base : ℕ) (ds : List Char) : ℕ := ds.foldl (fun v c => base * v + digitVal c) 0

/-- Values that are too large are cut off. -/
def clampLong (v : ℤ) : ℤ := max (-2 ^ 63) (min v (2 ^ 63 - 1))

/-- A sign and what follows it. -/
def splitSign (s : List Char) : ℤ × List Char :=
  if s.head? = some '-' then (-1, s.tail) else if s.head? = some '+' then (1, s.tail) else (1, s)

/-- The base that a number announces, and where its digits begin. -/
def splitBase (s : List Char) : ℕ × List Char :=
  if s.head? = some '0' then
    if (s[1]? = some 'x' ∨ s[1]? = some 'X') ∧ s[2]?.any (isDigit 16) then (16, s.drop 2)
    else (8, s)
  else (10, s)

/-- `strtol`: the value and what is left.  Nothing is taken if there is no number. -/
def strtol (base : ℕ) (s : List Char) : ℤ × List Char :=
  let (sign, t) := splitSign (s.dropWhile isSpace)
  let (base, t) := if base = 0 then splitBase t else (base, t)
  let digits := t.takeWhile (isDigit base)
  if digits = [] then (0, s)
  else (clampLong (sign * digitsVal base digits), t.dropWhile (isDigit base))

/-- Nothing but white space. -/
def Blank (s : List Char) : Prop := ∀ c ∈ s, isSpace c = true

instance (s : List Char) : Decidable (Blank s) :=
  List.decidableBAll (fun c => isSpace c = true) s

theorem Blank.nil : Blank [] := fun _ hc => absurd hc List.not_mem_nil

/-- Text that does not go on with a digit or a letter. -/
def Stop (s : List Char) : Prop := ∀ c, s.head? = some c → digitVal c = 36

theorem Stop.nil : Stop [] := fun _ h => by cases h

theorem Stop.cons {c : Char} (h : digitVal c = 36) (s : List Char) : Stop (c :: s) := fun _ hd => by
  cases hd
  exact h

theorem digitVal_of_isSpace {c : Char} (h : isSpace c = true) : digitVal c = 36 := by
  have hc : c.toNat = 32 ∨ 9 ≤ c.toNat ∧ c.toNat ≤ 13 := by
    simpa [isSpace, Bool.or_eq_true, Bool.and_eq_true] using h
  have hval : c.toNat = c.val.toNat := rfl
  have hdigit : c.isDigit = false := by
    simp only [Char.isDigit, Bool.and_eq_false_iff, decide_eq_false_iff_not, ge_iff_le,
      UInt32.le_iff_toNat_le]
    left
    show ¬ 48 ≤ c.val.toNat
    omega
  have hlower : c.isLower = false := by
    simp only [Char.isLower, Bool.and_eq_false_iff, decide_eq_false_iff_not, ge_iff_le,
      UInt32.le_iff_toNat_le]
    left
    show ¬ 97 ≤ c.val.toNat
    omega
  have hupper : c.isUpper = false := by
    simp only [Char.isUpper, decide_eq_false_iff_not, UInt32.le_iff_toNat_le]
    show ¬ (65 ≤ c.val.toNat ∧ c.val.toNat ≤ 90)
    omega
  simp [digitVal, hdigit, hlower, hupper]

/-- A number ends at white space. -/
theorem Blank.stop {s t : List Char} (hs : Blank s) (ht : Stop t) : Stop (s ++ t) := by
  cases s with
  | nil => exact ht
  | cons c s => exact Stop.cons (digitVal_of_isSpace (hs c List.mem_cons_self)) _

section Parts

variable {α : Type} {p : α → Bool} {s t : List α}

/-- A prefix is dropped, and no more than that. -/
theorem dropWhile_append_stop (hs : ∀ c ∈ s, p c = true)
    (ht : ∀ c, t.head? = some c → p c = false) : (s ++ t).dropWhile p = t := by
  rw [List.dropWhile_append_of_pos hs]
  cases t with
  | nil => rfl
  | cons c t => exact List.dropWhile_cons_of_neg (by simp [ht c rfl])

theorem takeWhile_append_stop (hs : ∀ c ∈ s, p c = true)
    (ht : ∀ c, t.head? = some c → p c = false) : (s ++ t).takeWhile p = s := by
  rw [List.takeWhile_append_of_pos hs]
  cases t with
  | nil => simp
  | cons c t => rw [List.takeWhile_cons_of_neg (by simp [ht c rfl]), List.append_nil]

end Parts

section Numerals

variable {c : Char} {n : ℕ} {s t : List Char}

theorem isDigit_toDigits (h : c ∈ Nat.toDigits 10 n) : c.isDigit = true :=
  Nat.isDigit_of_mem_toDigits (by decide) (by decide) h

theorem digitVal_of_isDigit (h : c.isDigit = true) : digitVal c = c.toNat - 48 := if_pos h

theorem toNat_of_isDigit (h : c.isDigit = true) : 48 ≤ c.toNat ∧ c.toNat ≤ 57 := by
  simp only [Char.isDigit, Bool.and_eq_true, decide_eq_true_eq] at h
  exact h

/-- A digit is no other character that text is searched for. -/
theorem isSpace_of_isDigit (h : c.isDigit = true) : isSpace c = false := by
  have hc := toNat_of_isDigit h
  simp only [isSpace, Bool.or_eq_false_iff, decide_eq_false_iff_not, Bool.and_eq_false_iff]
  omega

theorem isDigit_ten_of_isDigit (h : c.isDigit = true) : isDigit 10 c = true := by
  have hc := toNat_of_isDigit h
  rw [isDigit, digitVal_of_isDigit h, decide_eq_true_eq]
  omega

/-- A number other than 0 does not begin with 0. -/
theorem head?_toDigits (hn : n ≠ 0) : ∃ d, 0 < d ∧ d < 10 ∧
    (Nat.toDigits 10 n).head? = some (Nat.digitChar d) := by
  induction n using Nat.strongRecOn with
  | ind n ih =>
      by_cases hlt : n < 10
      · rw [Nat.toDigits_of_lt_base hlt]
        exact ⟨n, Nat.pos_of_ne_zero hn, hlt, rfl⟩
      · obtain ⟨d, hpos, hd, hhead⟩ := ih (n / 10) (by omega) (by omega)
        rw [Nat.toDigits_eq_if (by decide), if_neg hlt]
        exact ⟨d, hpos, hd, by rw [List.head?_append, hhead]; rfl⟩

theorem foldl_digitVal (s : List Char) (hs : ∀ c ∈ s, c.isDigit = true) (v : ℕ) :
    s.foldl (fun v c => 10 * v + digitVal c) v = Nat.ofDigitChars 10 s v := by
  induction s generalizing v with
  | nil => simp
  | cons c s ih =>
      rw [List.foldl_cons, Nat.ofDigitChars_cons, ih fun x hx => hs x (List.mem_cons_of_mem _ hx),
        digitVal_of_isDigit (hs c List.mem_cons_self)]
      rfl

theorem digitsVal_toDigits (n : ℕ) : digitsVal 10 (Nat.toDigits 10 n) = n := by
  rw [digitsVal, foldl_digitVal _ fun _ h => isDigit_toDigits h, Nat.ofDigitChars_ten_toDigits]

/-- What follows a number is not part of it. -/
theorem Stop.isDigit (h : Stop s) {base : ℕ} (hbase : base ≤ 36) (hc : s.head? = some c) :
    isDigit base c = false := by
  rw [Text.isDigit, h c hc, decide_eq_false_iff_not]
  exact not_lt.mpr hbase

/-- The digits of a number are taken, in a base that has them all. -/
theorem splitDigits {base : ℕ} (hbase : base ≤ 36) (hs : ∀ c ∈ s, Text.isDigit base c = true)
    (ht : Stop t) : (s ++ t).takeWhile (Text.isDigit base) = s ∧
      (s ++ t).dropWhile (Text.isDigit base) = t :=
  ⟨takeWhile_append_stop hs fun _ hc => ht.isDigit hbase hc,
    dropWhile_append_stop hs fun _ hc => ht.isDigit hbase hc⟩

/-- A number that is written without leading zeros is decimal, and 0 is 0 in octal. -/
theorem splitBase_toDigits (ht : Stop t) : ∃ base ≤ 36, splitBase (Nat.toDigits 10 n ++ t) =
    (base, Nat.toDigits 10 n ++ t) ∧ (∀ c ∈ Nat.toDigits 10 n, isDigit base c = true) ∧
      digitsVal base (Nat.toDigits 10 n) = n := by
  by_cases hn : n = 0
  · subst hn
    refine ⟨8, by decide, ?_, by simp [isDigit, digitVal], by simp [digitsVal, digitVal]⟩
    have hx : t[0]? ≠ some 'x' ∧ t[0]? ≠ some 'X' := by
      constructor <;>
      · intro hx
        rw [← List.head?_eq_getElem?] at hx
        exact absurd (ht _ hx) (by decide)
    simp [splitBase, hx.1, hx.2]
  · obtain ⟨d, hpos, hd, hhead⟩ := head?_toDigits hn
    refine ⟨10, by decide, ?_, fun c hc => isDigit_ten_of_isDigit (isDigit_toDigits hc),
      digitsVal_toDigits n⟩
    have hzero : Nat.digitChar d ≠ '0' := by
      intro heq
      have hval := congrArg Char.toNat heq
      rw [Nat.toNat_digitChar_of_lt_ten hd, show '0'.toNat = 48 from rfl] at hval
      omega
    rw [splitBase, List.head?_append, hhead]
    exact if_neg fun h => hzero (Option.some.inj h)

theorem splitSign_toDigits (n : ℕ) (t : List Char) :
    splitSign (Nat.toDigits 10 n ++ t) = (1, Nat.toDigits 10 n ++ t) := by
  obtain ⟨c, ds, hds⟩ := List.exists_cons_of_ne_nil (Nat.toDigits_ne_nil (n := n) (b := 10))
  have hc : c.isDigit = true := isDigit_toDigits (n := n) (hds ▸ List.mem_cons_self)
  rw [hds, List.cons_append, splitSign, List.head?_cons, if_neg, if_neg]
  all_goals
    intro heq
    cases heq
    exact absurd hc (by decide)

/-- `strtol` reads a number back, in decimal and when it looks for the base itself. -/
theorem strtol_toDigits {base : ℕ} (hbase : base = 0 ∨ base = 10) (hs : Blank s) (ht : Stop t)
    (hn : n < 2 ^ 63) : strtol base (s ++ (Nat.toDigits 10 n ++ t)) = ((n : ℤ), t) := by
  have hne : Nat.toDigits 10 n ≠ [] := Nat.toDigits_ne_nil
  have hblank : (s ++ (Nat.toDigits 10 n ++ t)).dropWhile isSpace = Nat.toDigits 10 n ++ t := by
    refine dropWhile_append_stop hs fun c hc => ?_
    obtain ⟨d, ds, hds⟩ := List.exists_cons_of_ne_nil hne
    rw [hds, List.cons_append, List.head?_cons] at hc
    cases hc
    exact isSpace_of_isDigit (isDigit_toDigits (n := n) (hds ▸ List.mem_cons_self))
  have hfound : ∃ b ≤ 36, (if base = 0 then splitBase (Nat.toDigits 10 n ++ t)
      else (base, Nat.toDigits 10 n ++ t)) = (b, Nat.toDigits 10 n ++ t) ∧
        (∀ c ∈ Nat.toDigits 10 n, isDigit b c = true) ∧ digitsVal b (Nat.toDigits 10 n) = n := by
    rcases hbase with rfl | rfl
    · exact splitBase_toDigits ht
    · exact ⟨10, by decide, rfl, fun c hc => isDigit_ten_of_isDigit (isDigit_toDigits hc),
        digitsVal_toDigits n⟩
  obtain ⟨b, hb, hsplit, hdigits, hval⟩ := hfound
  obtain ⟨htake, hdrop⟩ := splitDigits hb hdigits ht
  have hclamp : clampLong (1 * (n : ℤ)) = n := by
    unfold clampLong
    omega
  unfold strtol
  rw [hblank, splitSign_toDigits]
  dsimp only
  rw [hsplit]
  dsimp only
  rw [htake, if_neg hne, hdrop, hval, hclamp]

/-- A number takes something of the text. -/
theorem ne_append_toDigits (s t : List Char) (n : ℕ) : t ≠ s ++ (Nat.toDigits 10 n ++ t) := by
  intro heq
  have hlen := congrArg List.length heq
  have hpos := List.length_pos_iff.mpr (Nat.toDigits_ne_nil (n := n) (b := 10))
  simp only [List.length_append] at hlen
  omega

/-- Nothing is read where no number begins. -/
theorem strtol_nil (base : ℕ) : strtol base [] = (0, []) := by
  unfold strtol splitSign splitBase
  by_cases hbase : base = 0 <;> simp [hbase]

end Numerals

/-! ## Taking text apart -/

/-- The parts that `getline` reads up to the separators one after the other.  There is
nothing to read behind a separator at the end. -/
def getlines (sep : Char) (s : List Char) : List (List Char) :=
  if (s.splitOn sep).getLast? = some [] then (s.splitOn sep).dropLast else s.splitOn sep

/-- Text without the given characters at its ends. -/
def trim (p : Char → Bool) (s : List Char) : List Char := (s.rdropWhile p).dropWhile p

theorem length_intercalate_ge {α : Type} (sep : α) {parts : List (List α)}
    (hne : ∀ s ∈ parts, s ≠ []) : parts.length ≤ ([sep].intercalate parts).length := by
  induction parts with
  | nil => exact Nat.zero_le _
  | cons s parts ih =>
      have hs := List.length_pos_iff.mpr (hne s List.mem_cons_self)
      have hrest := ih fun t ht => hne t (List.mem_cons_of_mem _ ht)
      by_cases hnil : parts = []
      · subst hnil
        simpa using Nat.succ_le_of_lt hs
      · rw [List.intercalate_cons_of_ne_nil hnil]
        simp only [List.length_cons, List.length_append]
        omega

/-- Parts that are joined are read again. -/
theorem getlines_intercalate {sep : Char} {parts : List (List Char)}
    (hsep : ∀ s ∈ parts, sep ∉ s) (hne : ∀ s ∈ parts, s ≠ []) :
    getlines sep ([sep].intercalate parts) = parts := by
  unfold getlines
  by_cases hnil : parts = []
  · subst hnil
    rfl
  · rw [List.splitOn_intercalate sep hsep hnil]
    exact if_neg fun hlast => hne [] (List.mem_of_getLast? hlast) rfl

theorem intercalate_concat {α : Type} (sep : α) (l : List (List α)) (s : List α) :
    [sep].intercalate (l ++ [s]) = l.flatMap (· ++ [sep]) ++ s := by
  induction l with
  | nil => simp
  | cons t l ih =>
      rw [List.cons_append, List.intercalate_cons_of_ne_nil (by simp), ih, List.flatMap_cons]
      simp

/-- Parts that each have a separator behind them are joined once the last one is gone. -/
theorem rdropWhile_flatMap {sep : Char} {parts : List (List Char)}
    (hsep : ∀ s ∈ parts, sep ∉ s) (hne : ∀ s ∈ parts, s ≠ []) :
    (parts.flatMap (· ++ [sep])).rdropWhile (· = sep) = [sep].intercalate parts := by
  induction parts using List.reverseRecOn with
  | nil => rfl
  | append_singleton l s _ =>
      have hs : s ∈ l ++ [s] := List.mem_append_right _ (List.mem_singleton_self s)
      have hsplit : (l ++ [s]).flatMap (· ++ [sep]) = (l.flatMap (· ++ [sep]) ++ s) ++ [sep] := by
        simp
      rw [intercalate_concat, hsplit, List.rdropWhile_concat_pos _ _ _ (by simp),
        List.rdropWhile_eq_self_iff]
      intro hnil heq
      rw [List.getLast_append_of_ne_nil _ (hne s hs), decide_eq_true_eq] at heq
      exact hsep s hs (heq ▸ List.getLast_mem (hne s hs))

theorem trim_append {p : Char → Bool} {pre s post : List Char} (hpre : ∀ c ∈ pre, p c = true)
    (hpost : ∀ c ∈ post, p c = true) (hfirst : ∀ c, s.head? = some c → p c = false)
    (hlast : ∀ c, s.getLast? = some c → p c = false) (hne : s ≠ []) :
    trim p (pre ++ (s ++ post)) = s := by
  have hright : (pre ++ (s ++ post)).rdropWhile p = pre ++ s := by
    rw [List.rdropWhile, List.reverse_append, List.reverse_append, List.append_assoc]
    rw [dropWhile_append_stop (fun c hc => hpost c (List.mem_reverse.mp hc)), ← List.reverse_append,
      List.reverse_reverse]
    intro c hc
    rw [List.head?_append_of_ne_nil _ (by simpa using hne), List.head?_reverse] at hc
    exact hlast c hc
  rw [trim, hright, dropWhile_append_stop hpre hfirst]

end Text
