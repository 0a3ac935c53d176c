/-
# The constraint matrix

`rq_matrix_generate` stacks the LT rows of the given IDs, the LT rows of the
padding symbols, the LDPC rows and the HDPC rows.  `constraintMatrix` is the
same stack as a function of the parameters and of the list of IDs.
-/

import TvRQ.Rq.Hdpc
import TvRQ.Rq.Ldpc
import TvRQ.Rq.Lt

namespace TvRQ

open Imperative Heap

/-- The number of padding symbols. -/
def Parameters.nPad (P : Parameters) : ℕ := (P.Kprime - P.K).toNat

/-- The dimensions of the matrix. -/
def rqMatrixGetDim (P : Parameters) (nESIs : ℕ) : ℕ × ℕ := (nESIs + P.nPad + P.S + P.H, P.L)

/-- The internal symbol IDs of the given symbols and of the padding symbols. -/
def toISIs {σ : Type} (P : Parameters) (nESIs : ℕ) (ESIs : Array UInt32) :
    Prog σ (Array UInt32) := do
  let ISIs ← foldRange 0 nESIs (Array.replicate (nESIs + P.nPad) 0) fun i ISIs => do
    let esi ← readArray ESIs i
    writeArray ISIs i (esi + if UInt32.ofInt P.K ≤ esi then UInt32.ofNat P.nPad else 0)
  foldRange 0 P.nPad ISIs fun i ISIs => writeArray ISIs (nESIs + i) (UInt32.ofInt (P.K + i))

/-- Write the constraint matrix. -/
def rqMatrixGenerate (M : M256v) (P : Parameters) (nESIs : ℕ) (ESIs : Array UInt32) :
    Prog (Heap UInt8) Unit := do
  let (nRows, nCols) := rqMatrixGetDim P nESIs
  ensure (nRows = M.nRow)
  ensure (nCols = M.nCol)
  let nISIs := nESIs + P.nPad
  let ISIs ← toISIs P nESIs ESIs
  let LT ← M.getSubview 0 0 nISIs P.L
  ltGenerateMat LT P nISIs ISIs
  let rowoffs := nISIs
  let LDPC ← M.getSubview rowoffs 0 P.S P.L
  ldpcGenerateMat LDPC P
  let rowoffs := rowoffs + P.S
  let HDPC ← M.getSubview rowoffs 0 P.H P.L
  hdpcGenerateMatFaster HDPC P
  let rowoffs := rowoffs + P.H
  ensure (rowoffs = nRows)

/-! ## The matrix as a table -/

/-- The internal symbol ID that belongs to an ID. -/
def esiToISI (P : Parameters) (X : UInt32) : UInt32 :=
  X + if UInt32.ofInt P.K ≤ X then UInt32.ofNat P.nPad else 0

/-- The internal symbol ID of LT row `i`. -/
def rowISI (P : Parameters) (ids : List UInt32) (i : ℕ) : UInt32 :=
  if i < ids.length then esiToISI P (ids.getD i 0)
  else UInt32.ofInt (P.K + (i - ids.length : ℕ))

/-- The number of rows of the constraint matrix. -/
def constraintRows (P : Parameters) (ids : List UInt32) : ℕ :=
  ids.length + P.nPad + P.S + P.H

/-- The constraint matrix. -/
def constraintMatrix (P : Parameters) (ids : List UInt32) : Table GF256 := fun r c =>
  if r < ids.length + P.nPad then isiRow P (rowISI P ids r) c
  else if r < ids.length + P.nPad + P.S then ldpcTable P (r - (ids.length + P.nPad)) c
  else hdpcTable P (r - (ids.length + P.nPad + P.S)) c

/-- The row of an ID. -/
theorem constraintMatrix_id (P : Parameters) {ids : List UInt32} {r : ℕ} (hr : r < ids.length)
    (c : ℕ) : constraintMatrix P ids r c = isiRow P (esiToISI P (ids.getD r 0)) c := by
  rw [constraintMatrix, if_pos (by omega), rowISI, if_pos hr]

/-- The rows behind those of the IDs do not depend on the IDs. -/
theorem constraintMatrix_tail (P : Parameters) (ids ids' : List UInt32) (k c : ℕ) :
    constraintMatrix P ids (ids.length + k) c = constraintMatrix P ids' (ids'.length + k) c := by
  simp only [constraintMatrix, rowISI, Nat.not_lt.mpr (Nat.le_add_right _ k), if_false,
    Nat.add_sub_cancel_left, Nat.add_assoc, Nat.add_lt_add_iff_left, Nat.add_sub_add_left]

/-- The first `n` members of the array are the IDs of the list. -/
structure StoresIds (ESIs : Array UInt32) (n : ℕ) (ids : List UInt32) : Prop where
  length_eq : ids.length = n
  get_eq : ∀ i < n, ESIs[i]? = some (ids.getD i 0)

theorem storesIds_toArray (ids : List UInt32) : StoresIds ids.toArray ids.length ids where
  length_eq := rfl
  get_eq := fun i hi => by
    rw [List.getElem?_toArray, List.getD_eq_getElem?_getD, List.getElem?_eq_getElem hi]
    rfl

section Generate

variable {M : M256v} {P : Parameters} {h : Heap UInt8} {A : Table GF256} {n : ℕ}
  {ESIs : Array UInt32} {ids : List UInt32}

/-- The translation of the IDs and the padding. -/
theorem toISIs_ends {σ : Type} (hids : StoresIds ESIs n ids) (s : σ) :
    Ends (toISIs P n ESIs) s fun ISIs s' => s' = s ∧ ISIs.size = n + P.nPad ∧
      ∀ i < n + P.nPad, ISIs[i]? = some (rowISI P ids i) := by
  let Filled : ℕ → Array UInt32 → σ → Prop := fun k ISIs s' => s' = s ∧
    ISIs.size = n + P.nPad ∧ ∀ i < k, ISIs[i]? = some (rowISI P ids i)
  have hwrite : ∀ k ISIs, k < n + P.nPad → Filled k ISIs s →
      Ends (writeArray ISIs k (rowISI P ids k)) s (Filled (k + 1)) := by
    intro k ISIs hk hI
    obtain ⟨-, hsize, hget⟩ := hI
    refine ends_writeArray.mpr ⟨by omega, rfl, by simpa using hsize, fun i hi => ?_⟩
    by_cases hik : i = k
    · simp [hik, hsize, hk]
    · rw [Array.getElem?_setIfInBounds_ne (Ne.symm hik)]
      exact hget i (by omega)
  unfold toISIs
  refine (foldRange_ends (I := Filled) (Nat.zero_le n) (fun k ISIs s' _ hk hI => ?_)
    ⟨rfl, by simp, fun i hi => absurd hi (Nat.not_lt_zero i)⟩).bind fun ISIs s' hI => ?_
  · obtain rfl := hI.1
    have hval : rowISI P ids k = esiToISI P (ids.getD k 0) := if_pos (hids.length_eq ▸ hk)
    simp only [ends_bind, ends_readArray]
    refine ⟨_, hids.get_eq k hk, ?_⟩
    have hend := hwrite k ISIs (by omega) hI
    rwa [hval] at hend
  · refine foldRange_ends (fun k => Filled (n + k)) (Nat.zero_le _) (fun k ISIs s' _ hk hI => ?_) hI
    obtain rfl := hI.1
    have hlen := hids.length_eq
    have hval : rowISI P ids (n + k) = UInt32.ofInt (P.K + k) := by
      rw [rowISI, if_neg (by omega), hlen, Nat.add_sub_cancel_left]
    have hend := hwrite (n + k) ISIs (by omega) hI
    rwa [hval] at hend

/-- The matrix gets the rows of the constraint matrix, whatever it held before. -/
theorem rqMatrixGenerate_ends (hP : P.Valid) (hids : StoresIds ESIs n ids) (hA : M.Holds h A)
    (hrow : M.nRow = constraintRows P ids) (hcol : M.nCol = P.L) :
    Ends (rqMatrixGenerate M P n ESIs) h fun _ h' =>
      M.Holds h' (constraintMatrix P ids) ∧ AgreeOff M.cells h h' := by
  have hS := hP.S_pos
  have hH := hP.H_ge
  have hlen := hids.length_eq
  have hrow' : M.nRow = n + P.nPad + P.S + P.H := by rw [hrow, constraintRows, hlen]
  unfold rqMatrixGenerate
  refine ends_bind.mpr (ends_ensure.mpr ⟨hrow'.symm, ?_⟩)
  refine ends_bind.mpr (ends_ensure.mpr ⟨hcol.symm, ?_⟩)
  refine (toISIs_ends hids h).bind fun ISIs h₁ hISIs => ?_
  obtain ⟨rfl, hsize, hget⟩ := hISIs
  refine (M256v.getSubview_ends (by omega) (by omega) (by omega)).bind fun LT h₂ hLT => ?_
  obtain ⟨hLT, rfl⟩ := hLT
  refine (ltGenerateMat_ends hP (hLT.holds hA) hLT.nRow_eq hLT.nCol_eq hsize).bind
    fun _ h₃ h₃p => ?_
  have h₃A := hLT.holds_patch hA h₃p.1 h₃p.2
  refine (M256v.getSubview_ends (by omega) (by omega) (by omega)).bind fun LDPC h₄ hLDPC => ?_
  obtain ⟨hLDPC, rfl⟩ := hLDPC
  refine (ldpcGenerateMat_ends hP (hLDPC.holds h₃A) hLDPC.nRow_eq hLDPC.nCol_eq).bind
    fun _ h₅ h₅p => ?_
  have h₅A := hLDPC.holds_patch h₃A h₅p.1 h₅p.2
  refine (M256v.getSubview_ends (by omega) (by omega) (by omega)).bind fun HDPC h₆ hHDPC => ?_
  obtain ⟨hHDPC, rfl⟩ := hHDPC
  refine (hdpcGenerateMatFaster_ends hP.hdpcValid (hHDPC.holds h₅A) hHDPC.nRow_eq
    hHDPC.nCol_eq).bind fun _ h₇ h₇p => ?_
  have h₇A := hHDPC.holds_patch h₅A h₇p.1 h₇p.2
  refine ends_ensure.mpr ⟨rfl, h₇A.congr fun r hr c hc => ?_, ?_⟩
  · have hc' : c < P.L := hcol ▸ hc
    simp only [Table.patch, constraintMatrix, hlen]
    by_cases hlt : r < n + P.nPad
    · have hgetD : ISIs.getD r 0 = rowISI P ids r := by
        rw [Array.getD_eq_getD_getElem?, hget r hlt]
        rfl
      rw [if_neg (by omega), if_neg (by omega), if_pos (by omega), if_pos hlt, ← hgetD]
      rfl
    · by_cases hldpc : r < n + P.nPad + P.S
      · rw [if_neg (by omega), if_pos (by omega), if_neg hlt, if_pos hldpc]
        rfl
      · rw [if_pos (by omega), if_neg hlt, if_neg hldpc]
        rfl
  · exact ((h₃p.2.mono hLT.cells_subset).trans (h₅p.2.mono hLDPC.cells_subset)).trans
      (h₇p.2.mono hHDPC.cells_subset)

end Generate

end TvRQ
