/-
# The field GF(256)

The table driven arithmetic of `gf256.c` and the field it implements.  The
exponent table lists the powers of the generator 2, so multiplication by a
power is iterated doubling, and doubling respects exclusive or: that is what
makes the tables distributive.
-/

import Mathlib.Algebra.CharP.Two
import Mathlib.Algebra.Field.Defs
import Mathlib.Data.Finset.Card
import Mathlib.Data.List.Iterate
import TvRQ.Lib.Prog

namespace TvRQ

open Imperative

/-- Powers of 2, over two periods. -/
@[irreducible]
def octExp : Array UInt8 := #[
  1, 2, 4, 8, 16, 32, 64, 128, 29, 58, 116, 232, 205, 135, 19, 38,
  76, 152, 45, 90, 180, 117, 234, 201, 143, 3, 6, 12, 24, 48, 96, 192,
  157, 39, 78, 156, 37, 74, 148, 53, 106, 212, 181, 119, 238, 193, 159, 35,
  70, 140, 5, 10, 20, 40, 80, 160, 93, 186, 105, 210, 185, 111, 222, 161,
  95, 190, 97, 194, 153, 47, 94, 188, 101, 202, 137, 15, 30, 60, 120, 240,
  253, 231, 211, 187, 107, 214, 177, 127, 254, 225, 223, 163, 91, 182, 113, 226,
  217, 175, 67, 134, 17, 34, 68, 136, 13, 26, 52, 104, 208, 189, 103, 206,
  129, 31, 62, 124, 248, 237, 199, 147, 59, 118, 236, 197, 151, 51, 102, 204,
  133, 23, 46, 92, 184, 109, 218, 169, 79, 158, 33, 66, 132, 21, 42, 84,
  168, 77, 154, 41, 82, 164, 85, 170, 73, 146, 57, 114, 228, 213, 183, 115,
  230, 209, 191, 99, 198, 145, 63, 126, 252, 229, 215, 179, 123, 246, 241, 255,
  227, 219, 171, 75, 150, 49, 98, 196, 149, 55, 110, 220, 165, 87, 174, 65,
  130, 25, 50, 100, 200, 141, 7, 14, 28, 56, 112, 224, 221, 167, 83, 166,
  81, 162, 89, 178, 121, 242, 249, 239, 195, 155, 43, 86, 172, 69, 138, 9,
  18, 36, 72, 144, 61, 122, 244, 245, 247, 243, 251, 235, 203, 139, 11, 22,
  44, 88, 176, 125, 250, 233, 207, 131, 27, 54, 108, 216, 173, 71, 142, 1,
  2, 4, 8, 16, 32, 64, 128, 29, 58, 116, 232, 205, 135, 19, 38, 76,
  152, 45, 90, 180, 117, 234, 201, 143, 3, 6, 12, 24, 48, 96, 192, 157,
  39, 78, 156, 37, 74, 148, 53, 106, 212, 181, 119, 238, 193, 159, 35, 70,
  140, 5, 10, 20, 40, 80, 160, 93, 186, 105, 210, 185, 111, 222, 161, 95,
  190, 97, 194, 153, 47, 94, 188, 101, 202, 137, 15, 30, 60, 120, 240, 253,
  231, 211, 187, 107, 214, 177, 127, 254, 225, 223, 163, 91, 182, 113, 226, 217,
  175, 67, 134, 17, 34, 68, 136, 13, 26, 52, 104, 208, 189, 103, 206, 129,
  31, 62, 124, 248, 237, 199, 147, 59, 118, 236, 197, 151, 51, 102, 204, 133,
  23, 46, 92, 184, 109, 218, 169, 79, 158, 33, 66, 132, 21, 42, 84, 168,
  77, 154, 41, 82, 164, 85, 170, 73, 146, 57, 114, 228, 213, 183, 115, 230,
  209, 191, 99, 198, 145, 63, 126, 252, 229, 215, 179, 123, 246, 241, 255, 227,
  219, 171, 75, 150, 49, 98, 196, 149, 55, 110, 220, 165, 87, 174, 65, 130,
  25, 50, 100, 200, 141, 7, 14, 28, 56, 112, 224, 221, 167, 83, 166, 81,
  162, 89, 178, 121, 242, 249, 239, 195, 155, 43, 86, 172, 69, 138, 9, 18,
  36, 72, 144, 61, 122, 244, 245, 247, 243, 251, 235, 203, 139, 11, 22, 44,
  88, 176, 125, 250, 233, 207, 131, 27, 54, 108, 216, 173, 71, 142]

/-- Exponents of the elements; the entry of 0 is a filler. -/
@[irreducible]
def octLog : Array UInt8 := #[
  255, 0, 1, 25, 2, 50, 26, 198, 3, 223, 51, 238, 27, 104, 199, 75,
  4, 100, 224, 14, 52, 141, 239, 129, 28, 193, 105, 248, 200, 8, 76, 113,
  5, 138, 101, 47, 225, 36, 15, 33, 53, 147, 142, 218, 240, 18, 130, 69,
  29, 181, 194, 125, 106, 39, 249, 185, 201, 154, 9, 120, 77, 228, 114, 166,
  6, 191, 139, 98, 102, 221, 48, 253, 226, 152, 37, 179, 16, 145, 34, 136,
  54, 208, 148, 206, 143, 150, 219, 189, 241, 210, 19, 92, 131, 56, 70, 64,
  30, 66, 182, 163, 195, 72, 126, 110, 107, 58, 40, 84, 250, 133, 186, 61,
  202, 94, 155, 159, 10, 21, 121, 43, 78, 212, 229, 172, 115, 243, 167, 87,
  7, 112, 192, 247, 140, 128, 99, 13, 103, 74, 222, 237, 49, 197, 254, 24,
  227, 165, 153, 119, 38, 184, 180, 124, 17, 68, 146, 217, 35, 32, 137, 46,
  55, 63, 209, 91, 149, 188, 207, 205, 144, 135, 151, 178, 220, 252, 190, 97,
  242, 86, 211, 171, 20, 42, 93, 158, 132, 60, 57, 83, 71, 109, 65, 162,
  31, 45, 67, 216, 183, 123, 164, 118, 196, 23, 73, 236, 127, 12, 111, 246,
  108, 161, 59, 82, 41, 157, 85, 170, 251, 96, 134, 177, 187, 204, 62, 90,
  203, 89, 95, 176, 156, 169, 160, 81, 11, 245, 22, 235, 122, 117, 44, 215,
  79, 174, 213, 233, 230, 231, 173, 232, 116, 214, 244, 234, 168, 80, 88, 175]

/-- Addition and subtraction. -/
def gf256Add (a b : UInt8) : UInt8 := a ^^^ b

/-- The discrete logarithm, or -1 for 0. -/
def gf256Log (val : UInt8) : ℤ :=
  if val = 0 then -1 else (octLog.getD val.toNat 0).toNat

/-- The power of the generator; the exponent is asserted to be in the table. -/
def gf256Exp (e : ℤ) : Except Fault UInt8 :=
  if 0 ≤ e ∧ e < octExp.size then .ok (octExp.getD e.toNat 0) else .error .assertion

/-- Multiplication through the tables. -/
def gf256Mul (a b : UInt8) : Except Fault UInt8 :=
  if a = 0 ∨ b = 0 then .ok 0 else gf256Exp (gf256Log a + gf256Log b)

/-- The inverse; its argument is asserted to be nonzero. -/
def gf256Inv (v : UInt8) : Except Fault UInt8 :=
  if v = 0 then .error .assertion else gf256Exp (255 - gf256Log v)

/-! ## What the tables contain -/

/-- The entry of the exponent table. -/
def power (e : ℕ) : UInt8 := octExp.getD e 0

/-- The entry of the logarithm table. -/
def index (v : UInt8) : ℕ := (octLog.getD v.toNat 0).toNat

/-- Multiplication by the generator: a shift, reduced by the field polynomial. -/
def double (a : UInt8) : UInt8 :=
  ⟨(a.toBitVec <<< 1) ^^^ (if a.toBitVec.msb then 29#8 else 0#8)⟩

theorem double_xor (a b : UInt8) : double (a ^^^ b) = double a ^^^ double b := by
  have hcarry : ∀ x y : Bool, (if (x ^^ y) then 29#8 else 0#8) =
      (if x then 29#8 else 0#8) ^^^ (if y then 29#8 else 0#8) := by decide
  apply UInt8.toBitVec_inj.mp
  simp only [double, UInt8.toBitVec_xor, BitVec.shiftLeft_xor_distrib, BitVec.msb_xor, hcarry]
  ac_rfl

@[simp]
theorem double_zero : double 0 = 0 := by decide

theorem octExp_size : octExp.size = 510 := by decide +kernel

/-- The exponent table lists what repeated doubling gives. -/
theorem octExp_toList : octExp.toList = List.iterate double 1 510 := by decide +kernel

/-- Doubling runs through nonzero elements and the logarithm table counts its steps. -/
theorem octLog_iterate : ∀ p ∈ (List.iterate double 1 255).zipIdx,
    p.1 ≠ 0 ∧ octLog.toList[p.1.toNat]? = some (UInt8.ofNat p.2) := by decide +kernel

theorem double_period : double^[255] 1 = 1 := by decide +kernel

theorem power_eq_iterate {e : ℕ} (he : e < 510) : power e = double^[e] 1 := by
  have hget : octExp.toList[e]? = some (double^[e] 1) := by
    rw [octExp_toList, List.getElem?_iterate double 1 510 e he]
  rw [power, Array.getD_eq_getD_getElem?, ← Array.getElem?_toList, hget]
  rfl

theorem power_zero : power 0 = 1 := power_eq_iterate (by omega)

theorem power_succ {e : ℕ} (he : e < 509) : power (e + 1) = double (power e) := by
  rw [power_eq_iterate (by omega), power_eq_iterate (by omega), Function.iterate_succ_apply']

theorem power_add_period {e : ℕ} (he : e < 255) : power (e + 255) = power e := by
  rw [power_eq_iterate (by omega), power_eq_iterate (by omega), Function.iterate_add_apply,
    double_period]

theorem power_ne_zero_and_index {e : ℕ} (he : e < 255) :
    power e ≠ 0 ∧ index (power e) = e := by
  have hmem : (double^[e] 1, e) ∈ (List.iterate double 1 255).zipIdx := by
    rw [List.mem_zipIdx_iff_getElem?, List.getElem?_iterate double 1 255 e he]
  obtain ⟨hne, hlog⟩ := octLog_iterate _ hmem
  rw [power_eq_iterate (by omega)]
  refine ⟨hne, ?_⟩
  rw [index, Array.getD_eq_getD_getElem?, ← Array.getElem?_toList, hlog, Option.getD_some,
    UInt8.toNat_ofNat_of_lt' (he.trans (by decide))]

/-- Doubling reaches every nonzero element: it passes through 255 different ones. -/
theorem exists_power {v : UInt8} (hv : v ≠ 0) : ∃ e < 255, power e = v := by
  have hinj : Set.InjOn (fun e => (power e).toNat) (Finset.range 255 : Finset ℕ) := by
    intro d hd e he heq
    rw [Finset.coe_range, Set.mem_Iio] at hd he
    have hpow := UInt8.toNat_inj.mp heq
    rw [← (power_ne_zero_and_index hd).2, hpow, (power_ne_zero_and_index he).2]
  have hsub : (Finset.range 255).image (fun e => (power e).toNat) ⊆
      (Finset.range 256).erase 0 := by
    intro x hx
    obtain ⟨e, he, rfl⟩ := Finset.mem_image.mp hx
    have hne := (power_ne_zero_and_index (Finset.mem_range.mp he)).1
    rw [Finset.mem_erase, Finset.mem_range]
    exact ⟨fun hz => hne (UInt8.toNat_inj.mp hz), (power e).toNat_lt⟩
  have himage := Finset.eq_of_subset_of_card_le hsub (by
    rw [Finset.card_image_of_injOn hinj, Finset.card_range,
      Finset.card_erase_of_mem (by simp), Finset.card_range])
  have hmem : v.toNat ∈ (Finset.range 256).erase 0 := by
    rw [Finset.mem_erase, Finset.mem_range]
    exact ⟨fun hz => hv (UInt8.toNat_inj.mp hz), v.toNat_lt⟩
  rw [← himage] at hmem
  obtain ⟨e, he, heq⟩ := Finset.mem_image.mp hmem
  exact ⟨e, Finset.mem_range.mp he, UInt8.toNat_inj.mp heq⟩

theorem index_lt_and_power {v : UInt8} (hv : v ≠ 0) : index v < 255 ∧ power (index v) = v := by
  obtain ⟨e, he, rfl⟩ := exists_power hv
  rw [(power_ne_zero_and_index he).2]
  exact ⟨he, rfl⟩

theorem index_one : index 1 = 0 := by
  rw [← power_zero]
  exact (power_ne_zero_and_index (by omega)).2

theorem index_lt {v : UInt8} (hv : v ≠ 0) : index v < 255 := (index_lt_and_power hv).1

theorem power_index {v : UInt8} (hv : v ≠ 0) : power (index v) = v := (index_lt_and_power hv).2

theorem power_mod {e : ℕ} (he : e < 510) : power e = power (e % 255) := by
  rcases lt_or_ge e 255 with hlt | hge
  · rw [Nat.mod_eq_of_lt hlt]
  · obtain ⟨k, rfl⟩ := Nat.exists_eq_add_of_le' hge
    rw [power_add_period (by omega), Nat.add_mod_right, Nat.mod_eq_of_lt (by omega)]

theorem power_ne_zero {e : ℕ} (he : e < 510) : power e ≠ 0 := by
  rw [power_mod he]
  exact (power_ne_zero_and_index (Nat.mod_lt _ (by omega))).1

theorem index_power {e : ℕ} (he : e < 510) : index (power e) = e % 255 := by
  rw [power_mod he]
  exact (power_ne_zero_and_index (Nat.mod_lt _ (by omega))).2

/-- Going `k` places up in the exponent table doubles `k` times. -/
theorem double_iterate_power {e k : ℕ} (h : e + k < 510) :
    double^[k] (power e) = power (e + k) := by
  induction k with
  | zero => rfl
  | succ k ih =>
      rw [Function.iterate_succ_apply', ih (by omega), ← Nat.add_assoc,
        power_succ (by omega)]

theorem double_iterate_xor (k : ℕ) (a b : UInt8) :
    double^[k] (a ^^^ b) = double^[k] a ^^^ double^[k] b := by
  induction k with
  | zero => rfl
  | succ k ih => rw [Function.iterate_succ_apply', ih, double_xor,
      ← Function.iterate_succ_apply' double, ← Function.iterate_succ_apply' double]

theorem double_iterate_zero (k : ℕ) : double^[k] 0 = 0 := by
  induction k with
  | zero => rfl
  | succ k ih => rw [Function.iterate_succ_apply', ih, double_zero]

/-! ## The field -/

/-- A byte read as an element of the field. -/
structure GF256 where
  byte : UInt8
  deriving DecidableEq, Repr

namespace GF256

theorem ext_iff' {a b : GF256} : a = b ↔ a.byte = b.byte := by
  cases a
  cases b
  simp

instance : Zero GF256 := ⟨⟨0⟩⟩
instance : One GF256 := ⟨⟨1⟩⟩
instance : Add GF256 := ⟨fun a b => ⟨a.byte ^^^ b.byte⟩⟩
instance : Neg GF256 := ⟨fun a => a⟩
instance : Mul GF256 := ⟨fun a b =>
  if a.byte = 0 ∨ b.byte = 0 then ⟨0⟩ else ⟨power (index a.byte + index b.byte)⟩⟩
instance : Inv GF256 := ⟨fun a =>
  if a.byte = 0 then ⟨0⟩ else ⟨power (255 - index a.byte)⟩⟩

@[simp] theorem byte_zero : (0 : GF256).byte = 0 := rfl
@[simp] theorem byte_one : (1 : GF256).byte = 1 := rfl
@[simp] theorem byte_add (a b : GF256) : (a + b).byte = a.byte ^^^ b.byte := rfl
@[simp] theorem byte_neg (a : GF256) : (-a).byte = a.byte := rfl

theorem byte_mul (a b : GF256) : (a * b).byte =
    if a.byte = 0 ∨ b.byte = 0 then 0 else power (index a.byte + index b.byte) := by
  show (if a.byte = 0 ∨ b.byte = 0 then (⟨0⟩ : GF256)
    else ⟨power (index a.byte + index b.byte)⟩).byte = _
  split_ifs <;> rfl

theorem byte_mul_of_ne_zero {a b : GF256} (ha : a.byte ≠ 0) (hb : b.byte ≠ 0) :
    (a * b).byte = power (index a.byte + index b.byte) := by
  rw [byte_mul, if_neg (by tauto)]

theorem byte_inv (a : GF256) : (a⁻¹).byte =
    if a.byte = 0 then 0 else power (255 - index a.byte) := by
  show (if a.byte = 0 then (⟨0⟩ : GF256) else ⟨power (255 - index a.byte)⟩).byte = _
  split_ifs <;> rfl

/-- Multiplication by a nonzero element is iterated doubling. -/
theorem byte_mul_eq_iterate {a : GF256} (ha : a.byte ≠ 0) (b : GF256) :
    (a * b).byte = double^[index a.byte] b.byte := by
  by_cases hb : b.byte = 0
  · rw [byte_mul, if_pos (Or.inr hb), hb, double_iterate_zero]
  · have hla := index_lt ha
    have hlb := index_lt hb
    rw [byte_mul_of_ne_zero ha hb]
    conv_rhs => rw [← power_index hb]
    rw [double_iterate_power (by omega), Nat.add_comm]

theorem mul_comm' (a b : GF256) : a * b = b * a := by
  rw [ext_iff', byte_mul, byte_mul, Nat.add_comm]
  simp only [or_comm]

theorem zero_mul' (a : GF256) : 0 * a = 0 := by
  simp [ext_iff', byte_mul]

theorem one_mul' (a : GF256) : 1 * a = a := by
  have hone : (1 : GF256).byte ≠ 0 := by decide
  rw [ext_iff', byte_mul_eq_iterate hone, byte_one, index_one]
  rfl

theorem mul_assoc' (a b c : GF256) : a * b * c = a * (b * c) := by
  by_cases ha : a.byte = 0
  · simp [ext_iff', byte_mul, ha]
  by_cases hb : b.byte = 0
  · simp [ext_iff', byte_mul, hb]
  by_cases hc : c.byte = 0
  · simp [ext_iff', byte_mul, hc]
  have hla := index_lt ha
  have hlb := index_lt hb
  have hlc := index_lt hc
  have hab := byte_mul_of_ne_zero ha hb
  have hbc := byte_mul_of_ne_zero hb hc
  have hab0 : (a * b).byte ≠ 0 := by
    rw [hab]
    exact power_ne_zero (by omega)
  have hbc0 : (b * c).byte ≠ 0 := by
    rw [hbc]
    exact power_ne_zero (by omega)
  rw [ext_iff', byte_mul_of_ne_zero hab0 hc, byte_mul_of_ne_zero ha hbc0, hab, hbc,
    index_power (by omega), index_power (by omega), power_mod (by omega),
    power_mod (e := index a.byte + _) (by omega)]
  congr 1
  omega

theorem mul_add' (a b c : GF256) : a * (b + c) = a * b + a * c := by
  by_cases ha : a.byte = 0
  · simp [ext_iff', byte_mul, ha]
  · rw [ext_iff', byte_add, byte_mul_eq_iterate ha, byte_mul_eq_iterate ha,
      byte_mul_eq_iterate ha, byte_add, double_iterate_xor]

theorem mul_inv_cancel' (a : GF256) (ha : a ≠ 0) : a * a⁻¹ = 1 := by
  have ha0 : a.byte ≠ 0 := fun h => ha (ext_iff'.mpr h)
  have hla := index_lt ha0
  have hinv : (a⁻¹).byte = power (255 - index a.byte) := by rw [byte_inv, if_neg ha0]
  have hinv0 : (a⁻¹).byte ≠ 0 := by rw [hinv]; exact power_ne_zero (by omega)
  rw [ext_iff', byte_mul_of_ne_zero ha0 hinv0, hinv, index_power (by omega),
    power_mod (by omega), byte_one, ← power_zero]
  congr 1
  omega

instance : CommRing GF256 where
  add_assoc a b c := by simp [ext_iff', UInt8.xor_assoc]
  zero_add a := by simp [ext_iff']
  add_zero a := by simp [ext_iff']
  add_comm a b := by simp [ext_iff', UInt8.xor_comm]
  neg_add_cancel a := by simp [ext_iff']
  left_distrib := mul_add'
  right_distrib a b c := by rw [mul_comm', mul_add', mul_comm' c a, mul_comm' c b]
  zero_mul := zero_mul'
  mul_zero a := by rw [mul_comm', zero_mul']
  mul_assoc := mul_assoc'
  one_mul := one_mul'
  mul_one a := by rw [mul_comm', one_mul']
  mul_comm := mul_comm'
  nsmul := nsmulRec
  zsmul := zsmulRec

instance : Field GF256 where
  exists_pair_ne := ⟨0, 1, by decide⟩
  mul_inv_cancel := mul_inv_cancel'
  inv_zero := by simp [ext_iff', byte_inv]
  nnqsmul := _
  nnqsmul_def := fun _ _ => rfl
  qsmul := _
  qsmul_def := fun _ _ => rfl

instance : CharP GF256 2 :=
  CharTwo.of_one_ne_zero_of_two_eq_zero (by decide) (by
    rw [← one_add_one_eq_two]
    decide)

end GF256

/-! ## The source's functions compute in the field -/

theorem gf256Log_of_ne_zero {v : UInt8} (hv : v ≠ 0) : gf256Log v = index v := by
  simp [gf256Log, hv, index]

theorem gf256Exp_eq_ok {e : ℕ} (he : e < 510) : gf256Exp e = .ok (power e) := by
  have hcond : (0 : ℤ) ≤ e ∧ (e : ℤ) < octExp.size := by rw [octExp_size]; omega
  rw [gf256Exp, if_pos hcond]
  rfl

/-- Only exponents in the table are looked up without a fault. -/
theorem gf256Exp_range {e : ℤ} {v : UInt8} (he : gf256Exp e = .ok v) : 0 ≤ e ∧ e ≤ 509 := by
  have hsize := octExp_size
  unfold gf256Exp at he
  split_ifs at he with hin
  omega

theorem gf256Add_eq (a b : GF256) : gf256Add a.byte b.byte = (a + b).byte := rfl

theorem gf256Mul_eq_ok (a b : GF256) : gf256Mul a.byte b.byte = .ok (a * b).byte := by
  rw [gf256Mul, GF256.byte_mul]
  split_ifs with hzero
  · rfl
  · have ha : a.byte ≠ 0 := fun h => hzero (Or.inl h)
    have hb : b.byte ≠ 0 := fun h => hzero (Or.inr h)
    have hla := index_lt ha
    have hlb := index_lt hb
    rw [gf256Log_of_ne_zero ha, gf256Log_of_ne_zero hb, ← Int.natCast_add,
      gf256Exp_eq_ok (by omega)]

theorem gf256Inv_eq_ok {a : GF256} (ha : a ≠ 0) : gf256Inv a.byte = .ok (a⁻¹).byte := by
  have ha0 : a.byte ≠ 0 := fun h => ha (GF256.ext_iff'.mpr h)
  have hla := index_lt ha0
  rw [gf256Inv, if_neg ha0, GF256.byte_inv, if_neg ha0, gf256Log_of_ne_zero ha0,
    show (255 : ℤ) - index a.byte = ((255 - index a.byte : ℕ) : ℤ) by omega,
    gf256Exp_eq_ok (by omega)]

/-- A nonzero byte times a nonzero byte, as the row operations compute it. -/
theorem gf256Exp_log_add {a b : GF256} (ha : a ≠ 0) (hb : b ≠ 0) :
    gf256Exp (gf256Log a.byte + gf256Log b.byte) = .ok (a * b).byte := by
  have ha0 : a.byte ≠ 0 := fun h => ha (GF256.ext_iff'.mpr h)
  have hb0 : b.byte ≠ 0 := fun h => hb (GF256.ext_iff'.mpr h)
  rw [← gf256Mul_eq_ok, gf256Mul, if_neg (by tauto)]

/-! ## Evaluation

A list takes as many steps to read as the position is deep, a number takes one.
-/

/-- The bytes as the digits of a number. -/
def digits (bytes : List UInt8) : ℕ := bytes.foldr (fun byte n => byte.toNat + 256 * n) 0

/-- One digit. -/
def digit (n i : ℕ) : UInt8 := .ofNat (n >>> (8 * i))

theorem digit_digits (bytes : List UInt8) (i : ℕ) : digit (digits bytes) i = bytes.getD i 0 := by
  induction bytes generalizing i with
  | nil =>
      show UInt8.ofNat (0 >>> (8 * i)) = 0
      rw [Nat.zero_shiftRight]
      rfl
  | cons byte bytes ih =>
      have hlt := byte.toNat_lt
      show UInt8.ofNat ((byte.toNat + 256 * digits bytes) >>> (8 * i)) = _
      cases i with
      | zero =>
          apply UInt8.toNat_inj.mp
          rw [UInt8.toNat_ofNat', Nat.mul_zero, Nat.shiftRight_zero]
          show _ = byte.toNat
          omega
      | succ i =>
          have hdiv : (byte.toNat + 256 * digits bytes) >>> 8 = digits bytes := by
            rw [Nat.shiftRight_eq_div_pow]
            omega
          rw [Nat.mul_succ, Nat.add_comm (8 * i), Nat.shiftRight_add, hdiv]
          exact ih i

/-- The two tables as numbers. -/
def expDigits : ℕ := digits octExp.toList
def logDigits : ℕ := digits octLog.toList

theorem power_eq_digit (e : ℕ) : power e = digit expDigits e := by
  rw [expDigits, digit_digits, power, Array.getD_eq_getD_getElem?, List.getD_eq_getElem?_getD,
    Array.getElem?_toList]

theorem index_eq_digit (v : UInt8) : index v = (digit logDigits v.toNat).toNat := by
  rw [logDigits, digit_digits, index, Array.getD_eq_getD_getElem?, List.getD_eq_getElem?_getD,
    Array.getElem?_toList]

/-- The product, read from these numbers. -/
def GF256.mulDigits (a b : GF256) : GF256 :=
  if a.byte = 0 ∨ b.byte = 0 then 0
  else ⟨digit expDigits
    ((digit logDigits a.byte.toNat).toNat + (digit logDigits b.byte.toNat).toNat)⟩

theorem GF256.mul_eq_mulDigits (a b : GF256) : a * b = a.mulDigits b := by
  rw [mulDigits, ← index_eq_digit, ← index_eq_digit, ← power_eq_digit]
  rfl

end TvRQ
