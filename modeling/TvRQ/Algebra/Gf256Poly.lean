/-
# Bytes as residues of binary polynomials

The functions of `gf256.c` are the arithmetic of the binary polynomials modulo
`x^8 + x^4 + x^3 + x^2 + 1`, which is irreducible: the exponent table lists
the powers of `x`, so adding logarithms multiplies the polynomials.
-/

import TvRQ.Algebra.Gf256
import TvRQ.Lib.BitPoly

noncomputable section

namespace TvRQ

open Polynomial BitPoly Imperative

/-- The polynomial that the products are reduced by. -/
def fieldPoly : (ZMod 2)[X] := modulus 29#8

/-- The polynomial whose coefficients are the bits of a byte. -/
def bytePoly (a : UInt8) : (ZMod 2)[X] := toPoly a.toBitVec

theorem fieldPoly_eq : fieldPoly = X ^ 8 + X ^ 4 + X ^ 3 + X ^ 2 + 1 := by
  have hlow : toPoly 29#8 = X ^ 4 + X ^ 3 + X ^ 2 + 1 := by
    ext i
    rw [coeff_toPoly]
    rcases lt_or_ge i 8 with hi | hi
    · have hbits : ∀ i < 8, (29#8).getLsbD i = decide (i = 4 ∨ i = 3 ∨ i = 2 ∨ i = 0) := by
        decide
      rw [hbits i hi]
      interval_cases i <;> simp [coeff_X_pow, coeff_one]
    · rw [BitVec.getLsbD_of_ge _ i hi]
      simp [coeff_X_pow, coeff_one, show i ≠ 4 by omega, show i ≠ 3 by omega,
        show i ≠ 2 by omega, show i ≠ 0 by omega]
  rw [fieldPoly, modulus, hlow]
  ring

theorem fieldPoly_monic : fieldPoly.Monic := modulus_monic _

@[simp]
theorem bytePoly_zero : bytePoly 0 = 0 := toPoly_zero

theorem bytePoly_one : bytePoly 1 = 1 := by
  ext i
  rw [bytePoly, coeff_toPoly, coeff_one]
  rcases lt_or_ge i 8 with hi | hi
  · simp
  · rw [BitVec.getLsbD_of_ge _ i hi]
    simp [show i ≠ 0 by omega]

theorem bytePoly_xor (a b : UInt8) : bytePoly (a ^^^ b) = bytePoly a + bytePoly b := by
  rw [bytePoly, UInt8.toBitVec_xor, toPoly_xor]
  rfl

theorem bytePoly_injective : Function.Injective bytePoly :=
  toPoly_injective.comp fun _ _ => UInt8.toBitVec_inj.mp

/-- The entries of the exponent table are the powers of `x`. -/
theorem mk_power {e : ℕ} (he : e < 510) :
    AdjoinRoot.mk fieldPoly (bytePoly (power e)) = AdjoinRoot.root fieldPoly ^ e := by
  have hdouble : ∀ k, (double^[k] 1).toBitVec = (shiftReduce 29#8)^[k] 1#8 := by
    intro k
    induction k with
    | zero => rfl
    | succ k ih =>
        rw [Function.iterate_succ_apply', Function.iterate_succ_apply', ← ih]
        rfl
  have hone : toPoly 1#8 = 1 := bytePoly_one
  rw [bytePoly, power_eq_iterate he, hdouble, fieldPoly, mk_iterate_shiftReduce, hone, map_one,
    mul_one]

/-! ## The residue class of a byte -/

/-- The field of the tables maps to the residues. -/
def residue : GF256 →+* AdjoinRoot fieldPoly where
  toFun a := AdjoinRoot.mk fieldPoly (bytePoly a.byte)
  map_zero' := by rw [GF256.byte_zero, bytePoly_zero, map_zero]
  map_one' := by rw [GF256.byte_one, bytePoly_one, map_one]
  map_add' a b := by rw [GF256.byte_add, bytePoly_xor, map_add]
  map_mul' a b := by
    by_cases ha : a.byte = 0
    · rw [GF256.byte_mul, if_pos (Or.inl ha), ha, bytePoly_zero, map_zero, zero_mul]
    by_cases hb : b.byte = 0
    · rw [GF256.byte_mul, if_pos (Or.inr hb), hb, bytePoly_zero, map_zero, mul_zero]
    have hla := index_lt ha
    have hlb := index_lt hb
    rw [GF256.byte_mul_of_ne_zero ha hb, mk_power (by omega), pow_add, ← mk_power (by omega),
      ← mk_power (by omega), power_index ha, power_index hb]

theorem residue_apply (a : GF256) :
    residue a = AdjoinRoot.mk fieldPoly (bytePoly a.byte) := rfl

theorem residue_bijective : Function.Bijective residue := by
  have hproper : Nontrivial (AdjoinRoot fieldPoly) :=
    AdjoinRoot.nontrivial _ (by rw [fieldPoly, degree_modulus]; decide)
  refine ⟨residue.injective, fun x => ?_⟩
  obtain ⟨a, rfl⟩ := exists_mk_toPoly 29#8 x
  exact ⟨⟨⟨a⟩⟩, rfl⟩

/-- A byte with the residue of a polynomial is its remainder. -/
theorem bytePoly_eq_modByMonic {a : GF256} {p : (ZMod 2)[X]}
    (h : residue a = AdjoinRoot.mk fieldPoly p) : bytePoly a.byte = p %ₘ fieldPoly :=
  eq_modByMonic h

/-- The residues are a field since the bytes are. -/
theorem fieldPoly_irreducible : Irreducible fieldPoly := by
  have hfield : IsField (AdjoinRoot fieldPoly) :=
    (RingEquiv.ofBijective residue residue_bijective).symm.toMulEquiv.isField
      (Field.toIsField GF256)
  have hmaximal : (Ideal.span {fieldPoly}).IsMaximal := Ideal.Quotient.maximal_of_isField _ hfield
  exact ((Ideal.span_singleton_prime fieldPoly_monic.ne_zero).mp hmaximal.isPrime).irreducible

/-- Every polynomial of degree less than 8 is that of one byte. -/
theorem existsUnique_bytePoly {p : (ZMod 2)[X]} (hp : p.degree < 8) :
    ∃! a, bytePoly a = p := by
  obtain ⟨a, rfl⟩ := exists_toPoly (n := 8) hp
  exact ⟨⟨a⟩, rfl, fun _ hb => bytePoly_injective hb⟩

/-- The powers of `x` run through a period as long as the table of the logarithms. -/
theorem orderOf_root : orderOf (AdjoinRoot.root fieldPoly) = 255 := by
  have hpower : ∀ {e : ℕ}, e < 510 → residue ⟨power e⟩ = AdjoinRoot.root fieldPoly ^ e :=
    fun he => mk_power he
  have hone : residue ⟨power 0⟩ = 1 := by rw [hpower (by omega), pow_zero]
  refine (orderOf_eq_iff (by omega)).mpr ⟨?_, fun e he hpos hpow => ?_⟩
  · rw [← hpower (by omega), show power 255 = power 0 from power_add_period (by omega), hone]
  · have hsame := residue_bijective.injective ((hpower (by omega)).trans (hpow.trans hone.symm))
    have hindex := congrArg index (GF256.ext_iff'.mp hsame)
    rw [index_power (by omega), index_power (by omega), Nat.mod_eq_of_lt he] at hindex
    omega

/-- The modulus is primitive. -/
theorem X_pow_modByMonic_eq_one (e : ℕ) : X ^ e %ₘ fieldPoly = 1 ↔ 255 ∣ e := by
  rw [← orderOf_root, orderOf_dvd_iff_pow_eq_one]
  constructor
  · intro h
    have hdvd := dvd_modByMonic_sub (X ^ e : (ZMod 2)[X]) fieldPoly
    have hmk := AdjoinRoot.mk_eq_mk.mpr hdvd
    rw [h, map_one, map_pow, AdjoinRoot.mk_X] at hmk
    exact hmk.symm
  · intro h
    rw [← bytePoly_one]
    symm
    apply bytePoly_eq_modByMonic (a := 1)
    rw [map_one, map_pow, AdjoinRoot.mk_X, h]

/-! ## The functions -/

theorem gf256Mul_poly (a b : UInt8) : ∃ c, gf256Mul a b = .ok c ∧
    bytePoly c = bytePoly a * bytePoly b %ₘ fieldPoly := by
  refine ⟨_, gf256Mul_eq_ok ⟨a⟩ ⟨b⟩, bytePoly_eq_modByMonic ?_⟩
  rw [map_mul, map_mul]
  rfl

theorem gf256Inv_poly {b : UInt8} (hb : b ≠ 0) : ∃ c, gf256Inv b = .ok c ∧
    bytePoly b * bytePoly c %ₘ fieldPoly = 1 := by
  have hb' : (⟨b⟩ : GF256) ≠ 0 := fun h => hb (GF256.ext_iff'.mp h)
  refine ⟨_, gf256Inv_eq_ok hb', ?_⟩
  rw [← bytePoly_one]
  symm
  apply bytePoly_eq_modByMonic (a := 1)
  rw [map_mul, ← residue_apply, ← mul_inv_cancel₀ hb', map_mul]
  rfl

theorem gf256Exp_poly {e : ℕ} (he : e < 510) : ∃ c, gf256Exp e = .ok c ∧
    bytePoly c = X ^ e %ₘ fieldPoly := by
  refine ⟨_, gf256Exp_eq_ok he, bytePoly_eq_modByMonic (a := ⟨power e⟩) ?_⟩
  rw [residue_apply, mk_power he, map_pow, AdjoinRoot.mk_X]

theorem gf256Log_poly {v : UInt8} (hv : v ≠ 0) : ∃ e < 255, gf256Log v = (e : ℕ) ∧
    bytePoly v = X ^ e %ₘ fieldPoly := by
  have hlog := index_lt hv
  obtain ⟨c, hc, hpoly⟩ := gf256Exp_poly (show index v < 510 by omega)
  rw [gf256Exp_eq_ok (by omega), power_index hv] at hc
  cases hc
  exact ⟨index v, hlog, gf256Log_of_ne_zero hv, hpoly⟩

/-- The bytes with the functions of `gf256.c` are the field of the binary polynomials modulo an
irreducible and primitive one, and the tables are the powers and the logarithms of `x`. -/
theorem gf256_is_residue_field :
    fieldPoly = X ^ 8 + X ^ 4 + X ^ 3 + X ^ 2 + 1 ∧ Irreducible fieldPoly ∧
    (∀ e : ℕ, X ^ e %ₘ fieldPoly = 1 ↔ 255 ∣ e) ∧
    (∀ p : (ZMod 2)[X], p.degree < 8 → ∃! a, bytePoly a = p) ∧
    (∀ a b, bytePoly (gf256Add a b) = bytePoly a + bytePoly b) ∧
    (∀ a b, ∃ c, gf256Mul a b = .ok c ∧
      bytePoly c = bytePoly a * bytePoly b %ₘ fieldPoly) ∧
    (∀ b, b ≠ 0 → ∃ c, gf256Inv b = .ok c ∧ bytePoly b * bytePoly c %ₘ fieldPoly = 1) ∧
    (∀ e : ℕ, e < 510 → ∃ c, gf256Exp e = .ok c ∧ bytePoly c = X ^ e %ₘ fieldPoly) ∧
    (∀ v, v ≠ 0 → ∃ e < 255, gf256Log v = (e : ℕ) ∧ bytePoly v = X ^ e %ₘ fieldPoly) :=
  ⟨fieldPoly_eq, fieldPoly_irreducible, X_pow_modByMonic_eq_one,
    fun _ => existsUnique_bytePoly, bytePoly_xor, gf256Mul_poly, fun _ => gf256Inv_poly,
    fun _ => gf256Exp_poly, fun _ => gf256Log_poly⟩

end TvRQ

end
