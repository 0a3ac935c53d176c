/-
# Tuples

The tuple of an encoding symbol describes two walks through the intermediate
symbols: from `b` in steps of `a` for `d` visits, and from `b1` in steps of `a1`
for `d1` visits.
-/

import Mathlib.Data.Nat.Find
import TvRQ.Rfc6330.Parameters
import TvRQ.Rfc6330.Rand

namespace TvRQ

open Imperative

/-- The bounds between the degrees. -/
def degBounds : Array ℕ := #[
  0, 5243, 529531, 704294, 791675, 844104, 879057, 904023, 922747, 937311, 948962, 958494,
  966438, 973160, 978921, 983914, 988283, 992138, 995565, 998631, 1001391, 1003887, 1006157,
  1008229, 1010129, 1011876, 1013490, 1014983, 1016370, 1017662, 1048576]

/-- The degree that belongs to `v`, which is asserted to have one. -/
def deg (v W : ℕ) : Except Fault ℕ :=
  if v < 2 ^ 20 then
    match (List.range' 1 30).find? fun d =>
        degBounds.getD (d - 1) 0 ≤ v && v < degBounds.getD d 0 with
    | some d => .ok (if d ≤ W - 2 then d else W - 2)
    | none => .error .assertion
  else
    .error .assertion

structure Tuple where
  d : ℕ
  a : ℕ
  b : ℕ
  d1 : ℕ
  a1 : ℕ
  b1 : ℕ
  deriving DecidableEq, Repr

/-- The tuple of an internal symbol ID. -/
def tupleGenerateFromISI (X : UInt32) (P : Parameters) : Except Fault Tuple := do
  let A := UInt32.ofNat ((53591 + P.J * 997) ||| 1)
  let B := UInt32.ofNat (10267 * (P.J + 1))
  let y := B + X * A
  let v := rand y 0 (2 ^ 20)
  let d ← deg v.toNat P.W
  pure { d := d
         a := (1 + rand y 1 (P.W - 1)).toNat
         b := (rand y 2 P.W).toNat
         d1 := if d < 4 then (2 + rand X 3 2).toNat else 2
         a1 := (1 + rand X 4 (P.P1 - 1)).toNat
         b1 := (rand X 5 P.P1).toNat }

/-- The tuple of an encoding symbol ID. -/
def tupleGenerateFromESI (X : UInt32) (P : Parameters) : Except Fault Tuple :=
  if UInt32.ofInt P.K ≤ X then
    tupleGenerateFromISI (X + UInt32.ofInt (P.Kprime - P.K)) P
  else
    tupleGenerateFromISI X P

/-! ## The range of a tuple -/

/-- What the walks rely on. -/
structure Tuple.Valid (T : Tuple) (P : Parameters) : Prop where
  d_pos : 1 ≤ T.d
  d_le : T.d ≤ P.W
  a_pos : 0 < T.a
  a_lt : T.a < P.W
  b_lt : T.b < P.W
  d1_pos : 1 ≤ T.d1
  d1_le : T.d1 ≤ 3
  a1_pos : 0 < T.a1
  a1_lt : T.a1 < P.P1
  b1_lt : T.b1 < P.P1

/-- The degrees of a tuple. -/
structure Tuple.DegreesValid (T : Tuple) (P : Parameters) : Prop where
  d_le : T.d ≤ P.W - 2
  d1_eq : T.d1 = 2 ∨ T.d1 = 3

/-- Every number of 20 bits lies between two bounds. -/
theorem exists_degree {v : ℕ} (hv : v < 2 ^ 20) :
    ∃ d, 1 ≤ d ∧ d ≤ 30 ∧ degBounds.getD (d - 1) 0 ≤ v ∧ v < degBounds.getD d 0 := by
  have hex : ∃ d, v < degBounds.getD d 0 ∧ d ≤ 30 := ⟨30, hv, le_rfl⟩
  classical
  have hspec := Nat.find_spec hex
  have hpos : Nat.find hex ≠ 0 := by
    intro hzero
    rw [hzero] at hspec
    exact Nat.not_lt_zero v hspec.1
  have hmin := Nat.find_min hex (show Nat.find hex - 1 < Nat.find hex by omega)
  refine ⟨Nat.find hex, by omega, hspec.2, ?_, hspec.1⟩
  by_contra hlt
  exact hmin ⟨by omega, by omega⟩

theorem deg_spec {v W : ℕ} (hv : v < 2 ^ 20) (hW : 3 ≤ W) :
    ∃ d, deg v W = .ok d ∧ 1 ≤ d ∧ d ≤ W - 2 := by
  obtain ⟨d, hlo, hhi, hle, hlt⟩ := exists_degree hv
  have hsome : ((List.range' 1 30).find? fun d =>
      degBounds.getD (d - 1) 0 ≤ v && v < degBounds.getD d 0).isSome := by
    rw [List.find?_isSome]
    exact ⟨d, List.mem_range'_1.mpr ⟨hlo, by omega⟩, by simp only [hle, hlt]; rfl⟩
  obtain ⟨e, he⟩ := Option.isSome_iff_exists.mp hsome
  have hmem := List.mem_range'_1.mp (List.mem_of_find?_eq_some he)
  refine ⟨if e ≤ W - 2 then e else W - 2, by rw [deg, if_pos hv, he], ?_, ?_⟩
  · split_ifs <;> omega
  · split_ifs <;> omega

/-- A small number and a random one do not wrap. -/
theorem toNat_add_rand (y : UInt32) (i : ℕ) (c : UInt32) {m : ℕ} (hpos : 0 < m)
    (hm : c.toNat + m < 2 ^ 32) : (c + rand y i m).toNat = c.toNat + (rand y i m).toNat := by
  have hlt := rand_lt y i hpos (by omega)
  rw [UInt32.toNat_add, Nat.mod_eq_of_lt (by omega)]

/-- Every internal symbol ID has a tuple, and it is in range. -/
theorem tupleGenerateFromISI_degrees {P : Parameters} (hP : P.Valid) (X : UInt32) :
    ∃ T, tupleGenerateFromISI X P = .ok T ∧ T.Valid P ∧ T.DegreesValid P := by
  have hW := hP.W_ge
  have hW' := hP.W_le
  have hP1 := hP.P_ge.trans hP.P_le_P1
  have hP1' := hP.P1_le
  let y := UInt32.ofNat (10267 * (P.J + 1)) + X * UInt32.ofNat ((53591 + P.J * 997) ||| 1)
  obtain ⟨d, hd, hpos, hle⟩ := deg_spec (W := P.W)
    (rand_lt y 0 (by decide : 0 < 2 ^ 20) (by decide)) (by omega)
  have ha := rand_lt y 1 (show 0 < P.W - 1 by omega) (by omega)
  have hb := rand_lt y 2 (show 0 < P.W by omega) (by omega)
  have hd1 := rand_lt X 3 (show 0 < 2 by omega) (by omega)
  have ha1 := rand_lt X 4 (show 0 < P.P1 - 1 by omega) (by omega)
  have hb1 := rand_lt X 5 (show 0 < P.P1 by omega) (by omega)
  have ha' : (1 + rand y 1 (P.W - 1)).toNat = 1 + (rand y 1 (P.W - 1)).toNat :=
    toNat_add_rand y 1 1 (by omega) (show 1 + (P.W - 1) < 2 ^ 32 by omega)
  have hd1' : (2 + rand X 3 2).toNat = 2 + (rand X 3 2).toNat :=
    toNat_add_rand X 3 2 (by omega) (show 2 + 2 < 2 ^ 32 by omega)
  have ha1' : (1 + rand X 4 (P.P1 - 1)).toNat = 1 + (rand X 4 (P.P1 - 1)).toNat :=
    toNat_add_rand X 4 1 (by omega) (show 1 + (P.P1 - 1) < 2 ^ 32 by omega)
  have hd1_eq : (if d < 4 then (2 + rand X 3 2).toNat else 2) = 2 ∨
      (if d < 4 then (2 + rand X 3 2).toNat else 2) = 3 := by split_ifs <;> omega
  refine ⟨_, by rw [tupleGenerateFromISI, hd]; rfl, ?_, hle, hd1_eq⟩
  exact {
    d_pos := hpos
    d_le := hle.trans (Nat.sub_le _ _)
    a_pos := by show 0 < (1 + rand y 1 (P.W - 1)).toNat; omega
    a_lt := by show (1 + rand y 1 (P.W - 1)).toNat < P.W; omega
    b_lt := hb
    d1_pos := by
      show 1 ≤ if d < 4 then (2 + rand X 3 2).toNat else 2
      omega
    d1_le := by
      show (if d < 4 then (2 + rand X 3 2).toNat else 2) ≤ 3
      omega
    a1_pos := by show 0 < (1 + rand X 4 (P.P1 - 1)).toNat; omega
    a1_lt := by show (1 + rand X 4 (P.P1 - 1)).toNat < P.P1; omega
    b1_lt := hb1 }

theorem tupleGenerateFromISI_spec {P : Parameters} (hP : P.Valid) (X : UInt32) :
    ∃ T, tupleGenerateFromISI X P = .ok T ∧ T.Valid P := by
  obtain ⟨T, hT, hvalid, -⟩ := tupleGenerateFromISI_degrees hP X
  exact ⟨T, hT, hvalid⟩

end TvRQ
