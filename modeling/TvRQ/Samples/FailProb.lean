/-
# Decoding at zero overhead

`zero_overhead_test` of `rq_failprob.c` compiles many lists of as many received
IDs as there are source symbols, and counts how often they are not enough to
decode.  Whatever numbers are drawn, the count is the number of lists whose
constraint matrix has not full rank.
-/

import TvRQ.Samples.Programs
import TvRQ.Samples.RandomEsis

namespace TvRQ

open Imperative

/-- The IDs of one test.  Without a predicate for the losses, where the loss is 1 in
the source, they are random. -/
def receiveEsis (K : ℕ) : Option (UInt32 → Bool) → Prog (List UInt32) (List UInt32)
  | none => getRandomEsis K
  | some lost => getEsisAfterLoss K lost

/-- The tests from number `i` on; each gets memory of its own. -/
def zeroOverheadLoop (K : ℕ) (loss : Option (UInt32 → Bool)) (progMem : Ptr)
    (mem : ℕ → Client) : ℕ → ℕ → ℤ → Prog (List UInt32) ℤ
  | 0, _, nFail => pure nFail
  | n + 1, i, nFail => do
      let ESIs ← receiveEsis K loss
      let (err, _) ← embed (getProgram K ESIs progMem (mem i))
      if err = 0 then
        zeroOverheadLoop K loss progMem mem n (i + 1) nFail
      else if err = rqErrInsuffIds then
        zeroOverheadLoop K loss progMem mem n (i + 1) (nFail + 1)
      else
        pure (-1)

/-- Compute decoder performance at 0 overhead. -/
def zeroOverheadTest (K nTest : ℕ) (loss : Option (UInt32 → Bool)) (progMem : Ptr)
    (mem : ℕ → Client) : Prog (List UInt32) ℤ :=
  zeroOverheadLoop K loss progMem mem nTest 0 0

/-! ## Received IDs -/

/-- The IDs that are received when some numbers are drawn. -/
def found : Option (UInt32 → Bool) → List UInt32 → List UInt32
  | none => drawn
  | some lost => kept lost

variable {loss : Option (UInt32 → Bool)} {K n : ℕ} {a b draws ids rest : List UInt32}

/-- More draws do not change what was received before. -/
theorem found_append (l more : List UInt32) :
    ∃ new, found loss (l ++ more) = found loss l ++ new := by
  cases loss with
  | none => exact drawn_append l more
  | some lost => exact ⟨_, kept_append l more⟩

/-- Nor do earlier draws make it less. -/
theorem length_found_le (l more : List UInt32) :
    (found loss more).length ≤ (found loss (l ++ more)).length := by
  cases loss with
  | none =>
      show (drawn more).length ≤ (drawn (l ++ more)).length
      refine ((drawn_nodup more).subperm fun v hv => ?_).length_le
      simp only [drawn, List.mem_eraseDups, List.map_append, List.mem_append] at hv ⊢
      exact Or.inr hv
  | some lost =>
      show (kept lost more).length ≤ (kept lost (l ++ more)).length
      rw [length_kept, length_kept, List.countP_append]
      exact Nat.le_add_left _ _

theorem length_found_append (l more : List UInt32) :
    (found loss l).length ≤ (found loss (l ++ more)).length := by
  obtain ⟨new, hnew⟩ := @found_append loss l more
  rw [hnew, List.length_append]
  exact Nat.le_add_right _ _

theorem receiveEsis_ends (hK : 3 * K < 2 ^ 31) (hlt : draws.length < 2 ^ 31)
    (Q : List UInt32 → List UInt32 → Prop)
    (hQ : ∀ ids rest, Received (found loss) K draws ids rest → Q ids rest) :
    Ends (receiveEsis K loss) draws Q ↔ K ≤ (found loss draws).length := by
  cases loss with
  | none => exact getRandomEsis_ends hK Q hQ
  | some lost => exact getEsisAfterLoss_ends hlt Q hQ

/-- Draws for `n` tests. -/
inductive Enough (f : List UInt32 → List UInt32) (K : ℕ) : ℕ → List UInt32 → Prop
  | zero {draws : List UInt32} : Enough f K 0 draws
  | succ {n : ℕ} {a b : List UInt32} (ha : K ≤ (f a).length) (hb : Enough f K n b) :
      Enough f K (n + 1) (a ++ b)

theorem Enough.append_left (h : Enough (found loss) K n b) (l : List UInt32) :
    Enough (found loss) K n (l ++ b) := by
  cases h with
  | zero => exact .zero
  | succ ha hb =>
      rw [← List.append_assoc]
      exact .succ (ha.trans (length_found_le l _)) hb

/-- The lists of IDs that are received one after the other. -/
inductive Trials (f : List UInt32 → List UInt32) (K : ℕ) :
    List UInt32 → List (List UInt32) → List UInt32 → Prop
  | done {draws : List UInt32} : Trials f K draws [] draws
  | step {draws ids rest rest' : List UInt32} {trials : List (List UInt32)}
      (hids : Received f K draws ids rest) (hrest : Trials f K rest trials rest') :
      Trials f K draws (ids :: trials) rest'

/-! ## The count -/

section Count

variable {P : Parameters} {progMem : Ptr} {mem : ℕ → Client}

theorem zeroOverheadLoop_ends (hget : parametersGet K = .ok P) (hK : P.K ≠ -1)
    (hsize : (K + P.nPad + P.S + P.H) * P.L < 2 ^ 31)
    (hmem : ∀ i ids, ids.length = K → (clientSizes P ids progMem 0).Fits (mem i)) {i : ℕ}
    {nFail : ℤ} (hlt : draws.length < 2 ^ 31) (henough : Enough (found loss) K n draws) :
    Ends (zeroOverheadLoop K loss progMem mem n i nFail) draws fun ret rest =>
      ∃ trials, Trials (found loss) K draws trials rest ∧ trials.length = n ∧
        ret = nFail + (trials.filter fun ids => ¬ FullRank P ids).length := by
  induction n generalizing draws i nFail with
  | zero => exact ends_pure.mpr ⟨[], .done, rfl, by simp⟩
  | succ n ih =>
      cases henough with
      | @succ _ a b ha hb =>
      have hKint : 3 * K < 2 ^ 31 := by
        have hKeq := (parametersGet_row hget hK).2.1
        have hle := (parametersGet_valid hget hK).K_le
        have hmax := (parametersGet_valid hget hK).Kprime_le
        omega
      have hall : K ≤ (found loss (a ++ b)).length := ha.trans (length_found_append a b)
      unfold zeroOverheadLoop
      apply ((receiveEsis_ends hKint hlt _ fun _ _ h => h).mpr hall).bind
      intro ids rest hids
      -- no test takes the numbers of the later ones
      obtain ⟨l, rfl⟩ := hids.rest_eq length_found_append ha
      have hrest : (l ++ b).length < 2 ^ 31 := by
        obtain ⟨done, hdraws, -⟩ := hids.prefix_eq
        rw [hdraws, List.length_append] at hlt
        omega
      have hextra : (ids.length : ℤ) - K = 0 := by rw [hids.length_eq, sub_self]
      have hrows : constraintRows P ids * P.L < 2 ^ 31 := by
        unfold constraintRows
        rwa [hids.length_eq]
      obtain ⟨err, s, hrun, herr⟩ := getProgram_ends hget (by rw [hextra]; decide) hrows
        (hmem i ids hids.length_eq)
      rw [ends_bind, ends_embed]
      refine ⟨_, hrun, ?_⟩
      dsimp only
      rw [if_neg hK] at herr
      by_cases hfull : FullRank P ids
      · rw [if_pos hfull] at herr
        rw [if_pos herr]
        apply (ih hrest (hb.append_left l)).mono
        rintro ret rest' ⟨trials, htrials, hlen, rfl⟩
        exact ⟨ids :: trials, .step hids htrials, by rw [List.length_cons, hlen], by simp [hfull]⟩
      · rw [if_neg hfull] at herr
        subst herr
        rw [if_neg (by decide), if_pos rfl]
        apply (ih hrest (hb.append_left l)).mono
        rintro ret rest' ⟨trials, htrials, hlen, rfl⟩
        refine ⟨ids :: trials, .step hids htrials, by rw [List.length_cons, hlen], ?_⟩
        rw [List.filter_cons_of_pos (by simpa using hfull), List.length_cons]
        push_cast
        ring

/-- The failures that are counted are the lists of received IDs without full rank, where
the number of source symbols is supported, the number of entries of the matrix is an `int`,
and fewer than 2^31 numbers are drawn and hold enough IDs. -/
theorem zeroOverheadTest_ends (hget : parametersGet K = .ok P) (hK : P.K ≠ -1)
    (hsize : (K + P.nPad + P.S + P.H) * P.L < 2 ^ 31)
    (hmem : ∀ i ids, ids.length = K → (clientSizes P ids progMem 0).Fits (mem i))
    (hlt : draws.length < 2 ^ 31) (henough : Enough (found loss) K n draws) :
    Ends (zeroOverheadTest K n loss progMem mem) draws fun ret rest =>
      ∃ trials, Trials (found loss) K draws trials rest ∧ trials.length = n ∧
        ret = (trials.filter fun ids => ¬ FullRank P ids).length := by
  apply (zeroOverheadLoop_ends hget hK hsize hmem hlt henough).mono
  rintro ret rest ⟨trials, htrials, hlen, rfl⟩
  exact ⟨trials, htrials, hlen, zero_add _⟩

end Count

theorem programMemory_fits_of_length {ids : List UInt32} (h : ids.length = 10) :
    (clientSizes params10 ids ⟨0, 0⟩ 0).Fits programMemory := by
  rw [clientSizes_congr (show ids.length = sourceIds.length from h)]
  exact programMemory_fits

/-- Two tests with ten random IDs each, one of which is drawn twice. -/
theorem zeroOverheadTest_ends_ten :
    Ends (zeroOverheadTest 10 2 none ⟨0, 0⟩ fun _ => programMemory)
      ((7 :: sourceIds) ++ (sourceIds ++ [])) fun ret rest => ∃ trials,
        Trials drawn 10 ((7 :: sourceIds) ++ (sourceIds ++ [])) trials rest ∧ trials.length = 2 ∧
          ret = (trials.filter fun ids => ¬ FullRank params10 ids).length :=
  zeroOverheadTest_ends parametersGet_ten (by decide) (by decide)
    (fun _ _ h => programMemory_fits_of_length h) (by decide)
    (.succ (by decide) (.succ (by decide) .zero))

end TvRQ
