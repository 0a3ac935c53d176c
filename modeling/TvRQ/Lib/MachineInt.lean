/-
# Machine integers

The arithmetic of a machine with 32-bit `int` and 64-bit `size_t`.  There are
two readings of `int` arithmetic.  `wrap32` is what the machine computes.
`intOf` is what the language defines: it stops where the value does not fit.
-/

import Mathlib.Algebra.Ring.Int.Defs
import Mathlib.Algebra.Ring.Nat
import TvRQ.Lib.Prog

namespace Imperative

/-- The 32-bit two's complement value of an integer. -/
@[irreducible]
def wrap32 (x : ℤ) : ℤ := x.bmod (2 ^ 32)

/-- The integers of type `int`. -/
def IsInt (x : ℤ) : Prop := -2 ^ 31 ≤ x ∧ x < 2 ^ 31

instance (x : ℤ) : Decidable (IsInt x) := inferInstanceAs (Decidable (_ ∧ _))

/-- An `int` result; a signed overflow is a fault. -/
def intOf (x : ℤ) : Except Fault ℤ := if IsInt x then .ok x else .error .overflow

/-- A size passed where an `int` is expected. -/
def intOfSize (n : ℕ) : Except Fault ℕ := if n < 2 ^ 31 then .ok n else .error .overflow

/-- The 64-bit value of an integer. -/
def sizeOf64 (x : ℤ) : ℕ := (x % 2 ^ 64).toNat

theorem wrap32_of_isInt {x : ℤ} (h : IsInt x) : wrap32 x = x := by
  obtain ⟨hlo, hhi⟩ := h
  unfold wrap32
  refine Int.bmod_eq_of_le ?_ ?_
  · show -((4294967296 : ℤ) / 2) ≤ x
    omega
  · show x < ((4294967296 : ℤ) + 1) / 2
    omega

theorem wrap32_of_overflow {x : ℤ} (hlo : 2 ^ 31 ≤ x) (hhi : x < 2 ^ 32) :
    wrap32 x = x - 2 ^ 32 := by
  have hshift : wrap32 x = wrap32 (x - 2 ^ 32) := by
    unfold wrap32
    exact (Int.sub_bmod_right x (2 ^ 32)).symm
  rw [hshift, wrap32_of_isInt ⟨by omega, by omega⟩]

theorem sizeOf64_natCast {n : ℕ} (h : n < 2 ^ 64) : sizeOf64 n = n := by
  unfold sizeOf64
  omega

theorem intOf_eq_ok {x y : ℤ} : intOf x = .ok y ↔ IsInt x ∧ x = y := by
  unfold intOf
  split_ifs with h <;> simp [h]

theorem intOf_natCast {n : ℕ} (hn : n < 2 ^ 31) : intOf (n : ℤ) = .ok (n : ℤ) :=
  intOf_eq_ok.mpr ⟨⟨by omega, by omega⟩, rfl⟩

theorem bind_eq_ok {α β : Type} {x : Except Fault α} {f : α → Except Fault β} {r : β} :
    x >>= f = .ok r ↔ ∃ a, x = .ok a ∧ f a = .ok r := by
  cases x with
  | error e =>
      constructor
      · intro h
        cases h
      · rintro ⟨a, h, -⟩
        cases h
  | ok a =>
      constructor
      · intro h
        exact ⟨a, rfl, h⟩
      · rintro ⟨b, h, hf⟩
        cases h
        exact hf

/-- An `int` that a program computes from sizes, an index for instance. -/
@[simp]
theorem ends_intOfSize {σ : Type} {n : ℕ} {s : σ} {Q : ℕ → σ → Prop} :
    Ends (embed (intOfSize n)) s Q ↔ n < 2 ^ 31 ∧ Q n s := by
  rw [ends_embed, intOfSize]
  split_ifs with h
  · constructor
    · rintro ⟨_, ⟨⟩, hQ⟩
      exact ⟨h, hQ⟩
    · exact fun hQ => ⟨n, rfl, hQ.2⟩
  · constructor
    · rintro ⟨_, ⟨⟩, -⟩
    · exact fun hlt => absurd hlt.1 h

end Imperative
