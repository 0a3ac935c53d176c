/-
# Walks through the residues of a prime

Adding a fixed number that is not a multiple of the prime visits every residue
once before the first one comes again.  A program that takes such a walk and
skips the residues it has no use for therefore never uses one twice, and finds
the next useful one as long as some are left.
-/

import Mathlib.Data.List.Chain
import Mathlib.Data.List.Nodup
import Mathlib.Data.Nat.ModEq
import Mathlib.Data.Nat.Factorial.Basic
import Mathlib.Data.Nat.Prime.Factorial
import Mathlib.Data.List.Perm.Subperm
import TvRQ.Lib.Prog

namespace PrimeWalk

open Imperative

/-! ## Small primes -/

/-- A bound below `n` that no two factors of `n` exceed, for `n` below 241². -/
def factorBound (n : ℕ) : ℕ :=
  if n < 4 then 1 else if n < 9 then 2 else if n < 25 then 4 else if n < 529 then 22 else 240

/-- A number without a factor up to the bound, seen by one greatest common divisor. -/
def trial (n : ℕ) : Bool := 2 ≤ n && n.gcd (factorBound n).factorial == 1

theorem lt_factorBound_sq {n : ℕ} (hn : n < 58081) :
    n < (factorBound n + 1) * (factorBound n + 1) := by
  unfold factorBound
  split_ifs <;> omega

theorem prime_of_trial {n : ℕ} (hn : n < 58081) (h : trial n = true) : n.Prime := by
  simp only [trial, Bool.and_eq_true, decide_eq_true_eq, beq_iff_eq] at h
  obtain ⟨htwo, hgcd⟩ := h
  have hbound := lt_factorBound_sq hn
  refine Nat.prime_def_le_sqrt.mpr ⟨htwo, fun m hm hsqrt hdvd => ?_⟩
  have hsq : m * m ≤ n := Nat.le_sqrt.mp hsqrt
  have hle : m ≤ factorBound n := by
    by_contra hgt
    have hlt : factorBound n + 1 ≤ m := Nat.lt_of_not_le hgt
    have := Nat.mul_le_mul hlt hlt
    omega
  have hone : m ∣ 1 := hgcd ▸ Nat.dvd_gcd hdvd (Nat.dvd_factorial (by omega) hle)
  have := Nat.le_of_dvd one_pos hone
  omega

/-- The bound is below the number itself, so no prime is turned away. -/
theorem trial_of_prime {n : ℕ} (hn : n.Prime) : trial n = true := by
  have htwo := hn.two_le
  have hbound : factorBound n < n := by
    unfold factorBound
    split_ifs <;> omega
  have hcoprime : n.Coprime (factorBound n).factorial :=
    hn.coprime_iff_not_dvd.mpr fun hdvd => absurd (hn.dvd_factorial.mp hdvd) hbound.not_ge
  simp only [trial, Bool.and_eq_true, decide_eq_true_eq, beq_iff_eq]
  exact ⟨htwo, hcoprime⟩

/-! ## The walk -/

/-- The residues visited from `x` on in steps of `a`, until all have had a turn. -/
def walk (p a x : ℕ) : List ℕ := (List.range p).map fun k => (x + k * a) % p

variable {p a x : ℕ}

@[simp]
theorem length_walk (p a x : ℕ) : (walk p a x).length = p := by simp [walk]

theorem walk_nodup (hp : p.Prime) (ha : 0 < a) (hap : a < p) (x : ℕ) : (walk p a x).Nodup := by
  refine List.Nodup.map_on (fun k hk k' hk' heq => ?_) List.nodup_range
  rw [List.mem_range] at hk hk'
  have hmod : k * a ≡ k' * a [MOD p] := Nat.ModEq.add_left_cancel' x heq
  have hcop : Nat.Coprime p a := (hp.coprime_iff_not_dvd).mpr fun hdvd =>
    absurd (Nat.le_of_dvd ha hdvd) (by omega)
  have hkk : k ≡ k' [MOD p] := Nat.ModEq.cancel_right_of_coprime hcop hmod
  exact Nat.ModEq.eq_of_lt_of_lt hkk hk hk'

theorem mem_walk_lt {y : ℕ} (hy : y ∈ walk p a x) : y < p := by
  obtain ⟨k, hk, rfl⟩ := List.mem_map.mp hy
  rw [List.mem_range] at hk
  exact Nat.mod_lt _ (by omega)

/-- The walk visits every residue once. -/
theorem walk_perm (hp : p.Prime) (ha : 0 < a) (hap : a < p) (x : ℕ) :
    (walk p a x).Perm (List.range p) := by
  have hsub : (walk p a x).Subperm (List.range p) :=
    (walk_nodup hp ha hap x).subperm fun y hy => List.mem_range.mpr (mem_walk_lt hy)
  exact hsub.perm_of_length_le (by simp)

/-- Each residue of the walk is one step behind the one before. -/
theorem walk_chain (p a x : ℕ) : (walk p a x).IsChain fun y z => (y + a) % p = z := by
  rw [walk, List.isChain_map, List.isChain_iff_getElem]
  intro k hk
  simp only [List.getElem_range, Nat.mod_add_mod]
  congr 1
  rw [Nat.succ_mul]
  omega

theorem walk_eq_cons (hx : x < p) : ∃ rest, walk p a x = x :: rest := by
  obtain ⟨n, rfl⟩ : ∃ n, p = n + 1 := ⟨p - 1, by omega⟩
  rw [walk, List.range_succ_eq_map, List.map_cons]
  simp only [Nat.zero_mul, Nat.add_zero, Nat.mod_eq_of_lt hx]
  exact ⟨_, rfl⟩

/-- As many residues of the walk lie below a bound as there are numbers below it. -/
theorem length_filter_walk (hp : p.Prime) (ha : 0 < a) (hap : a < p) (x : ℕ) {b : ℕ}
    (hb : b ≤ p) : ((walk p a x).filter (· < b)).length = b := by
  rw [((walk_perm hp ha hap x).filter _).length_eq]
  obtain ⟨n, rfl⟩ := Nat.exists_eq_add_of_le hb
  rw [List.range_add, List.filter_append]
  have hlow : (List.range b).filter (· < b) = List.range b :=
    List.filter_eq_self.mpr fun k hk => by simpa using hk
  have hhigh : ((List.range n).map (b + ·)).filter (· < b) = [] := by
    rw [List.filter_eq_nil_iff]
    intro k hk
    obtain ⟨j, -, rfl⟩ := List.mem_map.mp hk
    simp
  rw [hlow, hhigh]
  simp

/-! ## Skipping along a chain -/

variable {β : Type}

/-- A loop that steps along a chain stops at the first member it is to stop at. -/
theorem whileLoop_chain (cond : β → Bool) {next : β → β} {fuel : ℕ} {y : β} {rest : List β}
    (hchain : (y :: rest).IsChain fun u v => next u = v)
    (hhit : ∃ z ∈ y :: rest, cond z = false) (hfuel : rest.length < fuel) :
    ∃ z rest', whileLoop cond next fuel y = .ok z ∧ cond z = false ∧
      (z :: rest') <:+ (y :: rest) ∧
      (y :: rest).filter (fun u => !cond u) = z :: rest'.filter (fun u => !cond u) := by
  induction rest generalizing y fuel with
  | nil =>
      obtain ⟨z, hz, hstop⟩ := hhit
      rw [List.mem_singleton] at hz
      subst hz
      obtain ⟨fuel, rfl⟩ : ∃ n, fuel = n + 1 := ⟨fuel - 1, by omega⟩
      exact ⟨z, [], by simp [whileLoop, hstop], hstop, List.suffix_rfl, by simp [hstop]⟩
  | cons w rest ih =>
      obtain ⟨fuel, rfl⟩ : ∃ n, fuel = n + 1 := ⟨fuel - 1, by omega⟩
      cases hy : cond y with
      | false =>
          exact ⟨y, w :: rest, by simp [whileLoop, hy], hy, List.suffix_rfl, by simp [hy]⟩
      | true =>
          rw [List.isChain_cons_cons] at hchain
          obtain ⟨hstep, hchain⟩ := hchain
          have hhit' : ∃ z ∈ w :: rest, cond z = false := by
            obtain ⟨z, hz, hstop⟩ := hhit
            rcases List.mem_cons.mp hz with rfl | hz
            · rw [hy] at hstop
              cases hstop
            · exact ⟨z, hz, hstop⟩
          obtain ⟨z, rest', hrun, hstop, hsuf, hfilter⟩ :=
            ih hchain hhit' (by simpa using hfuel)
          refine ⟨z, rest', ?_, hstop, hsuf.trans (List.suffix_cons y _), ?_⟩
          · rw [whileLoop, if_pos hy, hstep]
            exact hrun
          · rw [List.filter_cons_of_neg (by simp [hy])]
            exact hfilter

end PrimeWalk
