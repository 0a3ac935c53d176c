/-
# Words as binary polynomials

Bit `i` of a word is the coefficient of `X ^ i`.  The words of width `n` are
the polynomials of degree less than `n`, hence the residues modulo a polynomial
of degree `n`, and shifting a word with a reduction is multiplying by `X` there.
-/

import Mathlib.Algebra.CharP.Two
import Mathlib.Algebra.Field.ZMod
import Mathlib.Algebra.Polynomial.OfFn
import Mathlib.RingTheory.AdjoinRoot

noncomputable section

namespace BitPoly

open Polynomial

variable {n : ℕ}

/-- The word with the given bits. -/
def ofBits (v : Fin n → ZMod 2) : BitVec n :=
  (BitVec.ofBoolListLE (List.ofFn fun i => v i = 1)).cast List.length_ofFn

theorem getLsbD_ofBits (v : Fin n → ZMod 2) {i : ℕ} (hi : i < n) :
    (ofBits v).getLsbD i = decide (v ⟨i, hi⟩ = 1) := by
  rw [ofBits, BitVec.getLsbD_cast, BitVec.getLsbD_ofBoolListLE, List.getD_eq_getElem?_getD,
    List.getElem?_ofFn, dif_pos hi, Option.getD_some]

/-- The bits of a word are a vector over the field of two elements. -/
def bitsEquiv (n : ℕ) : BitVec n ≃ (Fin n → ZMod 2) where
  toFun a := fun i => if a.getLsbD i then 1 else 0
  invFun := ofBits
  left_inv a := by
    apply BitVec.eq_of_getLsbD_eq
    intro i hi
    simp [getLsbD_ofBits _ hi, -BitVec.getLsbD_eq_getElem]
  right_inv v := by
    have hbit : ∀ x : ZMod 2, (if x = 1 then (1 : ZMod 2) else 0) = x := by decide
    funext i
    show (if (ofBits v).getLsbD i then (1 : ZMod 2) else 0) = v i
    simp only [getLsbD_ofBits v i.isLt, decide_eq_true_eq, hbit]

/-- The polynomial of a word. -/
def toPoly (a : BitVec n) : (ZMod 2)[X] := ofFn n (bitsEquiv n a)

theorem coeff_toPoly (a : BitVec n) (i : ℕ) :
    (toPoly a).coeff i = if a.getLsbD i then 1 else 0 := by
  rcases lt_or_ge i n with hi | hi
  · rw [toPoly, ofFn_coeff_eq_val_of_lt _ hi]
    rfl
  · rw [toPoly, ofFn_coeff_eq_zero_of_ge _ hi, BitVec.getLsbD_of_ge a i hi,
      if_neg Bool.false_ne_true]

theorem degree_toPoly_lt (a : BitVec n) : (toPoly a).degree < n := ofFn_degree_lt _

theorem toPoly_injective : Function.Injective (toPoly : BitVec n → (ZMod 2)[X]) :=
  (injective_ofFn n).comp (bitsEquiv n).injective

@[simp]
theorem toPoly_zero : toPoly 0#n = 0 := by
  ext i
  rw [coeff_toPoly, coeff_zero, BitVec.getLsbD_zero, if_neg Bool.false_ne_true]

theorem toPoly_xor (a b : BitVec n) : toPoly (a ^^^ b) = toPoly a + toPoly b := by
  have hxor : ∀ x y : Bool, (if (x ^^ y) then (1 : ZMod 2) else 0) =
      (if x then 1 else 0) + if y then 1 else 0 := by decide
  ext i
  rw [coeff_add, coeff_toPoly, coeff_toPoly, coeff_toPoly, BitVec.getLsbD_xor, hxor]

/-- Every polynomial of small degree is that of a word. -/
theorem exists_toPoly {p : (ZMod 2)[X]} (hp : p.degree < n) : ∃ a : BitVec n, toPoly a = p := by
  refine ⟨(bitsEquiv n).symm (toFn n p), ?_⟩
  rw [toPoly, Equiv.apply_symm_apply]
  ext i
  rcases lt_or_ge i n with hi | hi
  · rw [ofFn_coeff_eq_val_of_lt _ hi]
    rfl
  · rw [ofFn_coeff_eq_zero_of_ge _ hi, degree_lt_iff_coeff_zero p n |>.mp hp i hi]

/-! ## Reduction -/

/-- The polynomial of degree `n` with the low coefficients `m`. -/
def modulus (m : BitVec n) : (ZMod 2)[X] := X ^ n + toPoly m

theorem modulus_monic (m : BitVec n) : (modulus m).Monic := monic_X_pow_add (degree_toPoly_lt m)

theorem degree_modulus (m : BitVec n) : (modulus m).degree = n := by
  have hlow : (toPoly m).degree < (X ^ n : (ZMod 2)[X]).degree := by
    rw [degree_X_pow]
    exact degree_toPoly_lt m
  rw [modulus, degree_add_eq_left_of_degree_lt hlow, degree_X_pow]

/-- Shift by one place and reduce what is shifted out. -/
def shiftReduce (m a : BitVec n) : BitVec n := (a <<< 1) ^^^ (if a.msb then m else 0#n)

/-- What a shift loses is the highest bit. -/
theorem toPoly_shiftLeft_one (a : BitVec n) :
    toPoly (a <<< 1) + (if a.msb then X ^ n else 0) = X * toPoly a := by
  ext i
  have hcoeff : (if a.msb then (X ^ n : (ZMod 2)[X]) else 0).coeff i =
      if a.msb = true ∧ i = n then 1 else 0 := by
    by_cases hmsb : a.msb = true
    · simp [hmsb, coeff_X_pow]
    · simp [hmsb]
  rw [coeff_add, hcoeff, coeff_toPoly, BitVec.getLsbD_shiftLeft]
  cases i with
  | zero =>
      have hempty : ¬ (a.msb = true ∧ 0 = n) := by
        rintro ⟨hmsb, rfl⟩
        simp [BitVec.msb_eq_getLsbD_last] at hmsb
      simp [hempty]
  | succ i =>
      rw [coeff_X_mul, coeff_toPoly]
      rcases lt_trichotomy (i + 1) n with hlt | rfl | hgt
      · simp [hlt, hlt.ne]
      · simp [BitVec.msb_eq_getLsbD_last]
      · simp [hgt.not_gt, hgt.ne', BitVec.getLsbD_of_ge a i (Nat.lt_succ_iff.mp hgt)]

theorem toPoly_shiftReduce (m a : BitVec n) :
    toPoly (shiftReduce m a) = X * toPoly a + if a.msb then modulus m else 0 := by
  rw [shiftReduce, toPoly_xor, ← toPoly_shiftLeft_one, add_assoc]
  split_ifs
  · rw [modulus, CharTwo.add_cancel_left]
  · simp only [toPoly_zero, add_zero]

/-- In the residue ring it is multiplication by the root. -/
theorem mk_shiftReduce (m a : BitVec n) : AdjoinRoot.mk (modulus m) (toPoly (shiftReduce m a)) =
    AdjoinRoot.root (modulus m) * AdjoinRoot.mk (modulus m) (toPoly a) := by
  rw [toPoly_shiftReduce, map_add, map_mul, AdjoinRoot.mk_X]
  split_ifs
  · rw [AdjoinRoot.mk_self, add_zero]
  · rw [map_zero, add_zero]

theorem mk_iterate_shiftReduce (m a : BitVec n) (e : ℕ) :
    AdjoinRoot.mk (modulus m) (toPoly ((shiftReduce m)^[e] a)) =
      AdjoinRoot.root (modulus m) ^ e * AdjoinRoot.mk (modulus m) (toPoly a) := by
  induction e with
  | zero => rw [Function.iterate_zero_apply, pow_zero, one_mul]
  | succ e ih => rw [Function.iterate_succ_apply', mk_shiftReduce, ih, pow_succ', mul_assoc]

/-- A word is the remainder of every polynomial in its residue class. -/
theorem eq_modByMonic {m a : BitVec n} {p : (ZMod 2)[X]}
    (h : AdjoinRoot.mk (modulus m) (toPoly a) = AdjoinRoot.mk (modulus m) p) :
    toPoly a = p %ₘ modulus m := by
  have hself : toPoly a %ₘ modulus m = toPoly a :=
    (modByMonic_eq_self_iff (modulus_monic m)).mpr (degree_modulus m ▸ degree_toPoly_lt a)
  rw [← hself]
  exact modByMonic_eq_of_dvd_sub (modulus_monic m) (AdjoinRoot.mk_eq_mk.mp h)

/-- Every residue class has a word. -/
theorem exists_mk_toPoly (m : BitVec n) (x : AdjoinRoot (modulus m)) :
    ∃ a : BitVec n, AdjoinRoot.mk (modulus m) (toPoly a) = x := by
  obtain ⟨p, rfl⟩ := AdjoinRoot.mk_surjective x
  have hdegree : (p %ₘ modulus m).degree < n :=
    degree_modulus m ▸ degree_modByMonic_lt p (modulus_monic m)
  obtain ⟨a, ha⟩ := exists_toPoly hdegree
  refine ⟨a, ?_⟩
  rw [ha, AdjoinRoot.mk_eq_mk]
  exact dvd_modByMonic_sub p (modulus m)

end BitPoly

end
