/-
# Capacity

`RqInterInit` takes the number of IDs that fit from the size of the work memory,
and `RqInterGetMemSizes` has sized the program memory for that many LT rows.
`RqInterCompile` adds the rows of the padding symbols to them.  Whether there is
room for these rows depends on how much smaller the matrix is than the one that
the memory was made for.
-/

import TvRQ.Api.Compile

namespace TvRQ

open Imperative

/-- After every run of calls that all succeed the program memory is large enough. -/
def CapacityFits (w₀ : RqWorkMem) (progMemSize : ℕ) : Prop :=
  ∀ calls rets w, (∀ c ∈ calls, IsInt c.1 ∧ IsInt c.2) →
    runCalls rqInterAddIds calls w₀ = .ok (rets, w) → (∀ ret ∈ rets, ret = 0) →
      ∀ (mem : Ptr) (h : Heap UInt8), mem.off + progMemSize ≤ h.blockSize mem.blk →
        Ends (rqInterCompile w mem progMemSize) h fun out _ => out.1 ≠ rqErrEnomem

variable {nMaxK nK nMaxExtra : ℤ} {Pmax P : Parameters} {w : RqWorkMem} {cap size : ℕ}

/-- The compiler refuses memory that is too small. -/
theorem rqInterCompile_small (hsize : size < interMemNeeded w) (mem : Ptr) (h : Heap UInt8) :
    Ends (rqInterCompile w mem size) h fun out h' => out = (rqErrEnomem, none) ∧ h' = h := by
  unfold rqInterCompile
  rw [if_pos hsize, ends_pure]
  exact ⟨rfl, rfl⟩

/-- Calls never change the parameters and the capacity. -/
theorem runCalls_valid {calls : List (ℤ × ℤ)} {r : List ℤ × RqWorkMem} (hw : w.Valid cap)
    (hcap : cap < 2 ^ 31) (hcalls : ∀ c ∈ calls, IsInt c.1 ∧ IsInt c.2)
    (hrun : runCalls addIds calls w = .ok r) : r.2.Valid cap ∧ r.2.params = w.params := by
  refine runCalls_keeps (I := fun w' => w'.Valid cap ∧ w'.params = w.params)
    (fun c hc w₁ r₁ hw₁ hcall => ?_) ⟨hw, rfl⟩ hrun
  obtain ⟨hlo, hhi⟩ := (hcalls c hc).2
  have hends : Ends (addIds c.1 c.2) w₁ fun _ w' => w' = r₁.2 := ⟨r₁.1, r₁.2, hcall, rfl⟩
  have hsum : w₁.nESI + c.2 < 2 ^ 31 := by
    by_contra hge
    exact not_addIds_ends hw₁.1 hcap c.1 hhi (not_lt.mp hge) _ hends
  obtain ⟨hw₂, hparams, -⟩ := (addIds_ends hw₁.1 hcap c.1 hlo hsum).of_run hcall
  exact ⟨hw₂, hparams.trans hw₁.2⟩

/-- A single call fills the memory. -/
theorem runCalls_full (hw : w.Valid cap) (hzero : w.nESI = 0) (hcap : cap < 2 ^ 31) :
    Ends (runCalls rqInterAddIds [(0, cap)]) w fun rets w' =>
      rets = [0] ∧ w'.Valid cap ∧ w'.params = w.params ∧ w'.nESI = cap := by
  have hlo : -2 ^ 31 ≤ (cap : ℤ) := by omega
  refine (addIds_ends hw hcap 0 hlo (by omega)).bind fun ret w' hpost => ?_
  obtain ⟨hw', hparams, hids, hret⟩ := hpost
  refine ends_pure.mpr ⟨by rw [hret, if_pos (by omega)], hw', hparams, ?_⟩
  have hlen := hw.length_ids
  rw [← hw'.length_ids, hids, List.length_take, List.length_append, length_requested]
  omega

/-- The memory of a compilation as a size of a program. -/
theorem RqWorkMem.Valid.interMemNeeded_eq (hw : w.Valid cap) (hcap : cap < 2 ^ 30)
    (hP : w.params.Valid) : (interMemNeeded w : ℤ) =
      progSize (w.nESI + w.params.nPad + w.params.S + w.params.H) w.params := by
  have hpos := hw.nESI_nonneg
  have hle := hw.nESI_le
  have hK := hP.K_le
  have hK' := hP.one_le_K
  obtain ⟨⟨hKprime, -, hL, hS, hH⟩, -⟩ := hP.fields_le
  have hrows : maxRows (w.nESI - w.params.K) w.params =
      w.nESI + w.params.nPad + w.params.S + w.params.H := by
    unfold maxRows Parameters.nPad
    omega
  have hpad : (w.params.nPad : ℤ) = w.params.Kprime - w.params.K := by
    unfold Parameters.nPad
    omega
  have heq := TvRQ.interMemNeeded_eq (w := w) (by rw [hrows]; exact ⟨by omega, by omega⟩)
    (by rw [hrows]; omega) (by omega)
  rw [heq, hrows]

/-- What the compiler gets from memory that is large enough. -/
theorem compileInput_of_valid (hw : w.Valid cap) (hcap : cap < 2 ^ 30) (hP : w.params.Valid)
    (hsize : interMemNeeded w ≤ size) {mem : Ptr} {h : Heap UInt8}
    (hroom : mem.off + size ≤ h.blockSize mem.blk) :
    CompileInput w.params w.ids w mem size h where
  params_eq := rfl
  nESI_eq := hw.length_ids.symm
  ids_eq := w.storesIds
  rows_lt := by
    have hlen := hw.length_ids
    have hle := hw.nESI_le
    obtain ⟨⟨hKprime, -, hL, hS, hH⟩, -⟩ := hP.fields_le
    have hK' := hP.one_le_K
    unfold constraintRows Parameters.nPad
    omega
  size_ge := hsize
  room := hroom

/-- Memory fits exactly when a full work memory can be compiled. -/
theorem capacityFits_iff_progSize {w₀ : RqWorkMem} (hw₀ : w₀.Valid cap) (hzero : w₀.nESI = 0)
    (hcap : cap < 2 ^ 30) (hP : w₀.params.Valid) :
    CapacityFits w₀ size ↔
      progSize (cap + w₀.params.nPad + w₀.params.S + w₀.params.H) w₀.params ≤ size := by
  constructor
  · intro hfits
    by_contra hlarge
    obtain ⟨rets, w, hrun, hrets, hw, hparams, hfull⟩ := runCalls_full hw₀ hzero (by omega)
    have hneeded := hw.interMemNeeded_eq hcap (hparams ▸ hP)
    rw [hfull, hparams] at hneeded
    have hint : ∀ c ∈ [((0 : ℤ), (cap : ℤ))], IsInt c.1 ∧ IsInt c.2 := by
      intro c hc
      rw [List.mem_singleton.mp hc]
      exact ⟨⟨by omega, by omega⟩, by omega, by omega⟩
    have hends := hfits _ rets w hint hrun (by simp [hrets]) ⟨0, 0⟩ ⟨#[Array.replicate size 0]⟩
      (by simp [Heap.blockSize])
    obtain ⟨out, h', hcompile, hne⟩ := hends
    obtain ⟨hout, -⟩ := (rqInterCompile_small (by omega) _ _).of_run hcompile
    apply hne
    rw [hout]
  · intro hfits calls rets w hcalls hrun _ mem h hroom
    obtain ⟨hw, hparams⟩ : w.Valid cap ∧ w.params = w₀.params :=
      runCalls_valid hw₀ (by omega) hcalls hrun
    have hneeded := hw.interMemNeeded_eq hcap (hparams ▸ hP)
    have hle := hw.nESI_le
    have hrows : progSize (w.nESI + w₀.params.nPad + w₀.params.S + w₀.params.H) w₀.params ≤
        progSize (cap + w₀.params.nPad + w₀.params.S + w₀.params.H) w₀.params :=
      progSize_mono (by omega) (by omega) le_rfl
    rw [hparams] at hneeded
    refine (rqInterCompile_ret (hparams ▸ hP) (compileInput_of_valid hw hcap (hparams ▸ hP)
      (by omega) hroom)).mono fun out _ hout => ?_
    rw [hout]
    split_ifs <;> decide

/-- The program memory is large enough for all IDs that fit exactly when the
largest matrix, padding included, has room in it. -/
theorem capacityFits_iff (hmax : parametersGet nMaxK = .ok Pmax) (hmaxK : Pmax.K ≠ -1)
    (hget : parametersGet nK = .ok P) (hx : 0 ≤ nMaxExtra) {askSymNum : Bool}
    {sizes : InterMemSizes} {workSize progMemSize : ℕ}
    (hsizes : rqInterGetMemSizes nMaxK nMaxExtra true true askSymNum = .ok (0, sizes))
    (hwork : sizes.interWorkMemSize = some workSize)
    (hprog : sizes.interProgMemSize = some progMemSize) {mem₀ w₀ : RqWorkMem}
    (hmem : mem₀.ESIs.size = (workSize - sizeofWorkMem) / 4)
    (hinit : rqInterInit nK nMaxExtra workSize mem₀ = .ok (0, w₀)) :
    CapacityFits w₀ progMemSize ↔
      (nMaxExtra + Pmax.Kprime + (P.Kprime - nK) + P.S + P.H) * (P.L + 4) ≤
        (nMaxExtra + Pmax.Kprime + Pmax.S + Pmax.H) * (Pmax.L + 4) := by
  have hmaxP := parametersGet_valid hmax hmaxK
  obtain ⟨hlt, hr⟩ := (rqInterGetMemSizes_eq_ok_iff hmax hmaxK hx).mp hsizes
  obtain ⟨hK, rfl⟩ := (rqInterInit_ends hget).of_run hinit rfl
  cases hr
  cases hwork
  cases hprog
  have hP := parametersGet_valid hget hK
  have hKeq : P.K = nK := (parametersGet_row hget hK).2.1
  have hL := hmaxP.L_eq
  have hS := hmaxP.S_pos
  have hpos : 0 ≤ maxRows nMaxExtra Pmax := by unfold maxRows; omega
  -- The work memory has room for `cap` IDs.
  let cap : ℕ := (nMaxExtra + Pmax.Kprime).toNat
  have hcap : cap < 2 ^ 30 := by
    have hle : maxRows nMaxExtra Pmax * 2 ≤ maxRows nMaxExtra Pmax * Pmax.L :=
      mul_le_mul_of_nonneg_left (by omega) hpos
    unfold maxRows at hle hlt
    omega
  have hcapeq : cap = (sizeOf64 (sizeofWorkMem + (nMaxExtra + Pmax.Kprime) * 4) -
      sizeofWorkMem) / 4 := by
    unfold sizeOf64 sizeofWorkMem
    omega
  rw [← hcapeq] at hmem
  have hinit' : Initialised cap rqInterAddIds _ := .inter hcapeq hmem hinit
  obtain ⟨hw₀, hzero⟩ := hinit'.valid (by omega)
  have hexact := sizeOf64_progSize (P := Pmax) hpos hlt (by omega)
  have hpad : (P.nPad : ℤ) = P.Kprime - nK := by
    have hKprime := hP.K_le
    unfold Parameters.nPad
    omega
  have hrows : (cap : ℤ) = nMaxExtra + Pmax.Kprime := by omega
  rw [capacityFits_iff_progSize hw₀ hzero hcap hP, hexact]
  dsimp only
  rw [progSize_eq, progSize_eq, hpad, hrows, maxRows, add_le_add_iff_left]

/-- Ten symbols need no padding, so all IDs have room. -/
theorem capacityFits_iff_ten : CapacityFits (emptyMem 10) 877 := by
  have hsizes : rqInterGetMemSizes 10 0 true true true = .ok (0, ⟨some 92, some 877, some 27⟩) := by
    decide +kernel
  have hinit : rqInterInit 10 0 92 (freshMem 10) = .ok (0, emptyMem 10) := by decide +kernel
  exact (capacityFits_iff parametersGet_ten (by decide) parametersGet_ten (by decide) hsizes rfl rfl
    rfl hinit).mpr (by decide)

/-- Eleven symbols are padded to twelve, and the memory holds twelve IDs besides. -/
theorem not_capacityFits_eleven :
    rqInterGetMemSizes 11 0 true true true = .ok (0, ⟨some 100, some 997, some 29⟩) ∧
      rqInterInit 11 0 100 (freshMem 12) = .ok (0, { emptyMem 12 with params := params11 }) ∧
        ¬ CapacityFits { emptyMem 12 with params := params11 } 997 := by
  have hinit : rqInterInit 11 0 100 (freshMem 12) =
      .ok (0, { emptyMem 12 with params := params11 }) := by decide +kernel
  have hvalid := Initialised.valid (.inter rfl rfl hinit) (by decide)
  refine ⟨by decide +kernel, hinit, ?_⟩
  rw [capacityFits_iff_progSize hvalid.1 hvalid.2 (by decide)
    (parametersGet_valid parametersGet_eleven (by decide))]
  decide

end TvRQ
