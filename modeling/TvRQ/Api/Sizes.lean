/-
# Memory sizes

`RqInterGetMemSizes` tells the caller how much memory a program takes, and
`RqInterCompile` computes the size again for the IDs that were added.  The
first multiplies in `int` where the second multiplies in `size_t`, so they
agree as long as the product of the dimensions of the matrix is an `int`.
-/

import Mathlib.Algebra.Order.Ring.Int
import Mathlib.Tactic.NormNum.Basic
import Mathlib.Tactic.Ring
import TvRQ.Api.Inter

namespace TvRQ

open Imperative

/-- The number of rows of the largest matrix. -/
def maxRows (nMaxExtra : ℤ) (P : Parameters) : ℤ := nMaxExtra + P.Kprime + P.S + P.H

/-- The size of a program for `rows` rows. -/
def progSize (rows : ℤ) (P : Parameters) : ℤ := sizeofInterProgram + 4 * rows + rows * P.L

theorem progSize_eq (rows : ℤ) (P : Parameters) :
    progSize rows P = sizeofInterProgram + rows * (P.L + 4) := by
  unfold progSize
  ring

/-- The sizes are computed without overflow, the size of the program is exact,
and it is enough for every compilation with up to `nK + nMaxExtra` IDs. -/
def SizesAgree (nMaxK nMaxExtra : ℤ) (P : Parameters) : Prop :=
  ∀ askWork askSymNum, ∃ sizes n,
    rqInterGetMemSizes nMaxK nMaxExtra askWork true askSymNum = .ok (0, sizes) ∧
      sizes.interProgMemSize = some n ∧ (n : ℤ) = progSize (maxRows nMaxExtra P) P ∧
        ∀ w : RqWorkMem, parametersGet w.params.K = .ok w.params → w.params.K ≠ -1 →
          w.params.K ≤ nMaxK → 0 ≤ w.nESI → w.nESI ≤ w.params.K + nMaxExtra →
            interMemNeeded w ≤ n

variable {nMaxK nMaxExtra : ℤ} {P : Parameters} {w : RqWorkMem}

theorem rqInterGetMemSizes_unsupported (hP : parametersGet nMaxK = .ok P) (hK : P.K = -1)
    (nMaxExtra : ℤ) (askWork askProg askSymNum : Bool) :
    rqInterGetMemSizes nMaxK nMaxExtra askWork askProg askSymNum =
      .ok (rqErrEdom, ⟨none, none, none⟩) := by
  unfold rqInterGetMemSizes
  rw [hP]
  exact if_pos hK

/-- The sizes are computed exactly when no sum and not the product overflows. -/
theorem rqInterGetMemSizes_eq_ok (hP : parametersGet nMaxK = .ok P) (hK : P.K ≠ -1)
    {askWork askSymNum : Bool} {r : ℤ × InterMemSizes} :
    rqInterGetMemSizes nMaxK nMaxExtra askWork true askSymNum = .ok r ↔
      IsInt (nMaxExtra + P.Kprime) ∧ IsInt (nMaxExtra + P.Kprime + P.S) ∧
        IsInt (maxRows nMaxExtra P) ∧ IsInt (maxRows nMaxExtra P * P.L) ∧
          r = (0, ⟨if askWork then
              some (sizeOf64 (sizeofWorkMem + (nMaxExtra + P.Kprime) * 4)) else none,
            some (sizeOf64 (progSize (maxRows nMaxExtra P) P)),
            if askSymNum then some P.L else none⟩) := by
  unfold rqInterGetMemSizes
  rw [hP]
  simp only [bind_eq_ok, Except.ok.injEq, exists_eq_left', if_neg hK, if_true, intOf_eq_ok]
  constructor
  · rintro ⟨_, ⟨h₁, rfl⟩, _, ⟨h₂, rfl⟩, _, ⟨h₃, rfl⟩, _, ⟨h₄, rfl⟩, _, hprog, hr⟩
    cases hprog
    cases hr
    exact ⟨h₁, h₂, h₃, h₄, rfl⟩
  · rintro ⟨h₁, h₂, h₃, h₄, rfl⟩
    exact ⟨_, ⟨h₁, rfl⟩, _, ⟨h₂, rfl⟩, _, ⟨h₃, rfl⟩, _, ⟨h₄, rfl⟩, _, rfl, rfl⟩

/-- With a nonnegative number of extra symbols only the product can overflow. -/
theorem rqInterGetMemSizes_eq_ok_iff (hP : parametersGet nMaxK = .ok P) (hK : P.K ≠ -1)
    (hx : 0 ≤ nMaxExtra) {askWork askSymNum : Bool} {r : ℤ × InterMemSizes} :
    rqInterGetMemSizes nMaxK nMaxExtra askWork true askSymNum = .ok r ↔
      maxRows nMaxExtra P * P.L < 2 ^ 31 ∧
        r = (0, ⟨if askWork then
            some (sizeOf64 (sizeofWorkMem + (nMaxExtra + P.Kprime) * 4)) else none,
          some (sizeOf64 (progSize (maxRows nMaxExtra P) P)),
          if askSymNum then some P.L else none⟩) := by
  have hvalid := parametersGet_valid hP hK
  have hL := hvalid.L_eq
  have hS := hvalid.S_pos
  have hrows : maxRows nMaxExtra P ≤ maxRows nMaxExtra P * P.L :=
    le_mul_of_one_le_right (by unfold maxRows; omega) (by omega)
  rw [rqInterGetMemSizes_eq_ok hP hK]
  constructor
  · rintro ⟨-, -, -, h₄, hr⟩
    exact ⟨h₄.2, hr⟩
  · rintro ⟨hlt, hr⟩
    have hbound : maxRows nMaxExtra P < 2 ^ 31 := hrows.trans_lt hlt
    have hpos : 0 ≤ maxRows nMaxExtra P := by unfold maxRows; omega
    unfold maxRows at hbound
    refine ⟨⟨by omega, by omega⟩, ⟨by omega, by omega⟩, ⟨by omega, hrows.trans_lt hlt⟩,
      ⟨?_, hlt⟩, hr⟩
    omega

/-- The size of a program whose matrix is not larger is not larger. -/
theorem progSize_mono {rows rows' : ℤ} {P' : Parameters} (hrows : rows ≤ rows')
    (hpos : 0 ≤ rows') (hL : P.L ≤ P'.L) : progSize rows P ≤ progSize rows' P' := by
  have hmul : rows * P.L ≤ rows' * P'.L :=
    mul_le_mul hrows (by exact_mod_cast hL) (by omega) hpos
  unfold progSize
  omega

theorem sizeOf64_progSize {rows : ℤ} (hpos : 0 ≤ rows) (hlt : rows * P.L < 2 ^ 31)
    (hL : 1 ≤ P.L) : (sizeOf64 (progSize rows P) : ℤ) = progSize rows P := by
  have hle : rows ≤ rows * P.L := le_mul_of_one_le_right hpos (by exact_mod_cast hL)
  unfold sizeOf64 progSize sizeofInterProgram
  omega

/-- The rows that are compiled are counted exactly when their number is an `int`. -/
theorem interMemNeeded_eq (hrows : IsInt (maxRows (w.nESI - w.params.K) w.params))
    (hpos : 0 ≤ maxRows (w.nESI - w.params.K) w.params) (hL : w.params.L < 2 ^ 30) :
    (interMemNeeded w : ℤ) = progSize (maxRows (w.nESI - w.params.K) w.params) w.params := by
  have hsum : w.nESI + w.params.Kprime - w.params.K + w.params.S + w.params.H =
      maxRows (w.nESI - w.params.K) w.params := by
    unfold maxRows
    omega
  have hmul : maxRows (w.nESI - w.params.K) w.params * w.params.L ≤ 2 ^ 31 * 2 ^ 30 :=
    mul_le_mul hrows.2.le (by omega) (by omega) (by omega)
  have hmul_pos : 0 ≤ maxRows (w.nESI - w.params.K) w.params * w.params.L :=
    mul_nonneg hpos (by omega)
  have hrows_lt := hrows.2
  unfold interMemNeeded interRows sizeOf64 progSize sizeofInterProgram
  rw [hsum, wrap32_of_isInt hrows]
  omega

/-- The two computations of the size agree exactly as long as the number of
entries of the largest matrix is an `int`. -/
theorem sizesAgree_iff (hP : parametersGet nMaxK = .ok P) (hK : P.K ≠ -1)
    (hx : 0 ≤ nMaxExtra) :
    SizesAgree nMaxK nMaxExtra P ↔ maxRows nMaxExtra P * P.L < 2 ^ 31 := by
  have hvalid := parametersGet_valid hP hK
  have hL := hvalid.L_eq
  have hS := hvalid.S_pos
  have hpos : 0 ≤ maxRows nMaxExtra P := by unfold maxRows; omega
  constructor
  · intro h
    obtain ⟨sizes, n, hrun, -⟩ := h true true
    exact ((rqInterGetMemSizes_eq_ok_iff hP hK hx).mp hrun).1
  · intro hlt askWork askSymNum
    refine ⟨_, _, (rqInterGetMemSizes_eq_ok_iff hP hK hx).mpr ⟨hlt, rfl⟩, rfl,
      sizeOf64_progSize hpos hlt (by omega), fun w hw hwK hle hnESI hcount => ?_⟩
    have hwvalid := parametersGet_valid hw hwK
    have hmono := parametersGet_mono hw hP hwK hK hle
    have hwK' := hwvalid.K_le
    have hwL := hwvalid.L_eq
    have hwbound := hwvalid.Kprime_le
    have hwS := hwvalid.S_le
    have hwH := hwvalid.H_le
    have hrows : maxRows (w.nESI - w.params.K) w.params ≤ maxRows nMaxExtra P := by
      unfold maxRows
      omega
    have hrows_pos : 0 ≤ maxRows (w.nESI - w.params.K) w.params := by
      unfold maxRows
      omega
    have hlt' : maxRows nMaxExtra P < 2 ^ 31 :=
      (le_mul_of_one_le_right hpos (by omega)).trans_lt hlt
    have hneeded := interMemNeeded_eq (w := w) ⟨by omega, by omega⟩ hrows_pos (by omega)
    have hexact := sizeOf64_progSize hpos hlt (P := P) (by omega)
    have hsize := progSize_mono hrows hpos hmono.2.2.2
    omega

/-- The sizes for the smallest code with the default number of extra symbols. -/
theorem sizesAgree_iff_small : ∃ P, parametersGet 10 = .ok P ∧
    SizesAgree 10 rqDefaultMaxExtra P :=
  ⟨params10, parametersGet_ten,
    (sizesAgree_iff parametersGet_ten (by decide) (by decide)).mpr (by decide)⟩

/-- For the largest code with the default number of extra symbols the product of
the dimensions overflows. -/
theorem not_sizesAgree_max : ∃ P, parametersGet rqMaxK = .ok P ∧ P.K ≠ -1 ∧
    rqInterGetMemSizes rqMaxK rqDefaultMaxExtra true true true = .error .overflow ∧
      ¬ SizesAgree rqMaxK rqDefaultMaxExtra P := by
  have hrun : rqInterGetMemSizes rqMaxK rqDefaultMaxExtra true true true = .error .overflow := by
    decide +kernel
  refine ⟨⟨56403, 56403, 471, 57326, 907, 16, 56044, 56951, 375, 379, 359⟩, ?_, by decide, hrun,
    fun h => ?_⟩
  · decide +kernel
  · obtain ⟨sizes, n, hok, -⟩ := h true true
    rw [hrun] at hok
    cases hok

end TvRQ
