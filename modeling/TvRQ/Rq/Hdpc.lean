/-
# HDPC rows

By the RFC the HDPC rows are a product of two matrices with an identity block
behind it.  `hdpc_generate_mat_faster` gets by without the product: every
column is the next one times the generator of the field with two entries
flipped.
-/

import Mathlib.Algebra.BigOperators.Group.Finset.Piecewise
import Mathlib.Algebra.BigOperators.Ring.Finset
import TvRQ.Algebra.M256vView
import TvRQ.Algebra.MvProduct
import TvRQ.Rfc6330.Parameters
import TvRQ.Rfc6330.Rand

namespace TvRQ

open Imperative Heap

/-- The first flipped position of column `j`. -/
def flipA (P : Parameters) (j : ℕ) : UInt32 := rand (UInt32.ofNat (j + 1)) 6 P.H

/-- The second flipped position of column `j`. -/
def flipB (P : Parameters) (j : ℕ) : UInt32 :=
  (flipA P j + rand (UInt32.ofNat (j + 1)) 7 (P.H - 1) + 1) % UInt32.ofNat P.H

/-- Add one to an element. -/
def flipEl (G : M256v) (r c : ℕ) : Prog (Heap UInt8) Unit := do
  let v ← G.getEl r c
  G.setEl r c (gf256Add 1 v)

/-- Write the HDPC rows, from the last column of the product to the first. -/
def hdpcGenerateMatFaster (H : M256v) (P : Parameters) : Prog (Heap UInt8) Unit := do
  ensure (H.nRow = P.H)
  ensure (H.nCol = P.L)
  let G ← H.getSubview 0 0 P.H (P.Kprime + P.S)
  let _ ← foldRange 0 P.H 1 fun j val => do
    G.setEl j (P.Kprime + P.S - 1) val
    embed (gf256Mul val 2)
  forDown 0 (P.Kprime + P.S - 1) fun j => do
    forRange 0 P.H fun i => do
      let v ← G.getEl i (j + 1)
      let w ← embed (gf256Mul 2 v)
      G.setEl i j w
    flipEl G (flipA P j).toNat j
    flipEl G (flipB P j).toNat j
  let I ← H.getSubview 0 (P.Kprime + P.S) P.H P.H
  MvGen.clear I
  forRange 0 P.H fun i => I.setEl i i 1

/-! ## The rows as a table -/

/-- The generator of the field. -/
def alpha : GF256 := ⟨2⟩

/-- The matrix MT of the RFC. -/
def mtTable (P : Parameters) : Table GF256 := fun r j =>
  if j + 1 = P.Kprime + P.S then alpha ^ r
  else if r = (flipA P j).toNat ∨ r = (flipB P j).toNat then 1 else 0

/-- The matrix GAMMA of the RFC. -/
def gammaTable : Table GF256 := fun i j => if j ≤ i then alpha ^ (i - j) else 0

/-- The product of MT and GAMMA. -/
def gHdpcTable (P : Parameters) : Table GF256 := fun r c =>
  ∑ i ∈ Finset.range (P.Kprime + P.S), mtTable P r i * gammaTable i c

/-- The HDPC rows. -/
def hdpcTable (P : Parameters) : Table GF256 := fun r c =>
  if c < P.Kprime + P.S then gHdpcTable P r c else if c = r + (P.Kprime + P.S) then 1 else 0

theorem gammaTable_step (i c : ℕ) :
    gammaTable i c = (if i = c then 1 else 0) + alpha * gammaTable i (c + 1) := by
  rcases lt_trichotomy i c with hlt | rfl | hgt
  · have hno : ¬ c ≤ i := by omega
    have hno' : ¬ c + 1 ≤ i := by omega
    simp [gammaTable, hlt.ne, hno, hno']
  · simp [gammaTable]
  · have hsub : i - c = i - (c + 1) + 1 := by omega
    simp only [gammaTable, if_pos hgt.le, if_neg hgt.ne', if_pos (Nat.succ_le_of_lt hgt), zero_add]
    rw [hsub, pow_succ']

variable {P : Parameters}

/-- Every column of the product comes from the next one. -/
theorem gHdpcTable_step {c : ℕ} (hc : c < P.Kprime + P.S) (r : ℕ) :
    gHdpcTable P r c = mtTable P r c + alpha * gHdpcTable P r (c + 1) := by
  have hterm : ∀ i, mtTable P r i * gammaTable i c =
      (if i = c then mtTable P r c else 0) + alpha * (mtTable P r i * gammaTable i (c + 1)) := by
    intro i
    rw [gammaTable_step, mul_add, mul_left_comm]
    by_cases hi : i = c
    · subst hi
      simp
    · simp [hi]
  unfold gHdpcTable
  rw [Finset.sum_congr rfl fun i _ => hterm i, Finset.sum_add_distrib, ← Finset.mul_sum,
    Finset.sum_ite_eq', if_pos (Finset.mem_range.mpr hc)]

/-- Behind the last column there is nothing. -/
theorem gHdpcTable_end (r : ℕ) : gHdpcTable P r (P.Kprime + P.S) = 0 := by
  refine Finset.sum_eq_zero fun i hi => ?_
  rw [Finset.mem_range] at hi
  rw [gammaTable, if_neg (by omega), mul_zero]

/-! ## The rows that are written -/

/-- What the generator relies on. -/
structure Parameters.HdpcValid (P : Parameters) : Prop where
  H_ge : 2 ≤ P.H
  H_lt : P.H < 2 ^ 31
  width_pos : 1 ≤ P.Kprime + P.S
  L_eq : P.L = P.Kprime + P.S + P.H

theorem Parameters.Valid.hdpcValid (hP : P.Valid) : P.HdpcValid where
  H_ge := by have := hP.H_ge; omega
  H_lt := by have := hP.H_le; omega
  width_pos := by have := hP.S_pos; omega
  L_eq := hP.L_eq

section Generate

variable {G : M256v} {h h₀ : Heap UInt8} {A : Table GF256}

theorem flipA_lt (hP : P.HdpcValid) (j : ℕ) : (flipA P j).toNat < P.H := by
  have hH := hP.H_ge
  have hH' := hP.H_lt
  exact rand_lt _ 6 (by omega) (by omega)

/-- The two flipped positions are in range and different. -/
theorem flipB_spec (hP : P.HdpcValid) (j : ℕ) :
    (flipB P j).toNat < P.H ∧ (flipB P j).toNat ≠ (flipA P j).toNat := by
  have hH := hP.H_ge
  have hH' := hP.H_lt
  have hA := flipA_lt hP j
  have hr := rand_lt (UInt32.ofNat (j + 1)) 7 (show 0 < P.H - 1 by omega) (by omega)
  have hsum : (flipA P j + rand (UInt32.ofNat (j + 1)) 7 (P.H - 1) + 1).toNat =
      (flipA P j).toNat + (rand (UInt32.ofNat (j + 1)) 7 (P.H - 1)).toNat + 1 := by
    have hone : (1 : UInt32).toNat = 1 := rfl
    rw [UInt32.toNat_add, UInt32.toNat_add, hone, Nat.mod_add_mod]
    exact Nat.mod_eq_of_lt (by omega)
  have hval : (flipB P j).toNat =
      ((flipA P j).toNat + (rand (UInt32.ofNat (j + 1)) 7 (P.H - 1)).toNat + 1) % P.H := by
    rw [flipB, UInt32.toNat_mod, UInt32.toNat_ofNat_of_lt' (show P.H < 2 ^ 32 by omega), hsum]
  rw [hval]
  refine ⟨Nat.mod_lt _ (by omega), ?_⟩
  rcases Nat.lt_or_ge ((flipA P j).toNat + (rand (UInt32.ofNat (j + 1)) 7 (P.H - 1)).toNat + 1)
    P.H with hlt | hge
  · rw [Nat.mod_eq_of_lt hlt]
    omega
  · rw [Nat.mod_eq_sub_mod hge, Nat.mod_eq_of_lt (by omega)]
    omega

theorem flipEl_ends (hA : G.Holds h A) {r c : ℕ} (hr : r < G.nRow) (hc : c < G.nCol) :
    Ends (flipEl G r c) h fun _ h' =>
      G.Holds h' (A.set r c (1 + A r c)) ∧ AgreeOff G.cells h h' := by
  have hadd : ∀ a : GF256, gf256Add 1 a.byte = (1 + a).byte := gf256Add_eq 1
  simp only [flipEl, ends_bind, hA.ends_getEl hr hc, hadd]
  exact (M256v.setEl_ends hA hr hc (1 + A r c)).mono fun _ _ hpost =>
    ⟨hpost.1, hpost.2.mono (M256v.rowCells_subset hr)⟩

/-- The columns from `k` on are those of the product. -/
def ColumnsFrom (G : M256v) (P : Parameters) (k : ℕ) (h : Heap UInt8) : Prop :=
  ∃ A, G.Holds h A ∧ ∀ r c, k ≤ c → c < P.Kprime + P.S → A r c = gHdpcTable P r c

/-- A column of powers. -/
theorem powerColumn_ends (hA : G.Holds h A) (hrow : G.nRow = P.H) {c : ℕ} (hc : c < G.nCol) :
    Ends (foldRange 0 P.H 1 fun j val => do
      G.setEl j c val
      embed (gf256Mul val 2)) h fun _ h' =>
        G.Holds h' (fun i j => if j = c then alpha ^ i else A i j) ∧ AgreeOff G.cells h h' := by
  apply (foldRange_ends (fun k val h' => val = (alpha ^ k).byte ∧
    G.Holds h' (fun i j => if j = c ∧ i < k then alpha ^ i else A i j) ∧
      AgreeOff G.cells h h') (Nat.zero_le _) ?_ ?_).mono
  · rintro _ h' ⟨-, hT, hagree⟩
    refine ⟨hT.congr fun i hi j _ => ?_, hagree⟩
    have hi' : i < P.H := hrow ▸ hi
    simp only [hi', and_true]
  · rintro k _ h₁ - hk ⟨rfl, hT, hagree⟩
    apply (M256v.setEl_ends hT (by omega) hc (alpha ^ k)).bind
    rintro _ h₂ ⟨hT', hagree'⟩
    refine ends_embed.mpr ⟨_, gf256Mul_eq_ok (alpha ^ k) alpha, by rw [pow_succ],
      hT'.congr fun i _ j _ => ?_,
      hagree.trans (hagree'.mono (M256v.rowCells_subset (by omega)))⟩
    by_cases hij : i = k ∧ j = c
    · simp [Table.set, hij]
    · have hiff : (j = c ∧ i < k + 1) ↔ (j = c ∧ i < k) := by omega
      simp only [Table.set, if_neg hij, hiff]
  · exact ⟨rfl, hA.congr fun i _ j _ => by simp, AgreeOff.refl _ h⟩

/-- The last column. -/
theorem lastColumn_ends (hP : P.HdpcValid) (hA : G.Holds h A) (hrow : G.nRow = P.H)
    (hcol : G.nCol = P.Kprime + P.S) :
    Ends (foldRange 0 P.H 1 fun j val => do
      G.setEl j (P.Kprime + P.S - 1) val
      embed (gf256Mul val 2)) h fun _ h' =>
        ColumnsFrom G P (P.Kprime + P.S - 1) h' ∧ AgreeOff G.cells h h' := by
  have hwidth := hP.width_pos
  apply (powerColumn_ends hA hrow (show P.Kprime + P.S - 1 < G.nCol by omega)).mono
  rintro _ h' ⟨hT, hagree⟩
  let B : Table GF256 := fun r c =>
    if P.Kprime + P.S - 1 ≤ c then gHdpcTable P r c else A r c
  refine ⟨⟨B, hT.congr fun i hi j hj => ?_, fun r c hlo _ => if_pos hlo⟩, hagree⟩
  by_cases hj' : j = P.Kprime + P.S - 1
  · have hstep : j + 1 = P.Kprime + P.S := by omega
    have hmem : P.Kprime + P.S - 1 ≤ j := by omega
    rw [if_pos hj']
    simp only [B, if_pos hmem]
    rw [gHdpcTable_step (by omega), hstep, gHdpcTable_end, mul_zero, add_zero, mtTable,
      if_pos hstep]
  · have hout : ¬ P.Kprime + P.S - 1 ≤ j := by omega
    simp only [B, hj', if_false, hout]

/-- Column `j` becomes a multiple of the column right of it. -/
theorem copyColumn_ends (hA : G.Holds h A) (hrow : G.nRow = P.H) {j : ℕ} (hj : j + 1 < G.nCol) :
    Ends (forRange 0 P.H fun i => do
      let v ← G.getEl i (j + 1)
      let w ← embed (gf256Mul 2 v)
      G.setEl i j w) h fun _ h' =>
        G.Holds h' (fun r c => if c = j ∧ r < P.H then alpha * A r (j + 1) else A r c) ∧
          AgreeOff G.cells h h' := by
  refine forRange_ends (fun k h' =>
    G.Holds h' (fun r c => if c = j ∧ r < k then alpha * A r (j + 1) else A r c) ∧
      AgreeOff G.cells h h') (Nat.zero_le _) (fun k h₁ _ hk hI => ?_)
    ⟨hA.congr fun r _ c _ => by simp, AgreeOff.refl _ h⟩
  rw [ends_bind, hI.1.ends_getEl (by omega) (by omega), ends_bind, ends_embed,
    if_neg (by omega)]
  refine ⟨_, gf256Mul_eq_ok alpha (A k (j + 1)), ?_⟩
  refine (M256v.setEl_ends hI.1 (by omega) (by omega) (alpha * A k (j + 1))).mono
    fun _ h₂ h₂p => ⟨h₂p.1.congr fun r _ c _ => ?_,
      hI.2.trans (h₂p.2.mono (M256v.rowCells_subset (by omega)))⟩
  by_cases hrc : r = k ∧ c = j
  · simp [Table.set, hrc]
  · have hiff : (c = j ∧ r < k + 1) ↔ (c = j ∧ r < k) := by omega
    simp only [Table.set, if_neg hrc, hiff]

/-- One more column on the left. -/
theorem previousColumn_ends (hP : P.HdpcValid) (hrow : G.nRow = P.H)
    (hcol : G.nCol = P.Kprime + P.S) {j : ℕ} (hj : j + 1 < P.Kprime + P.S)
    (hG : ColumnsFrom G P (j + 1) h) :
    Ends (do
      forRange 0 P.H fun i => do
        let v ← G.getEl i (j + 1)
        let w ← embed (gf256Mul 2 v)
        G.setEl i j w
      flipEl G (flipA P j).toNat j
      flipEl G (flipB P j).toNat j) h fun _ h' =>
        ColumnsFrom G P j h' ∧ AgreeOff G.cells h h' := by
  obtain ⟨A, hA, hcols⟩ := hG
  have hflipA := flipA_lt hP j
  obtain ⟨hflipB, hne⟩ := flipB_spec hP j
  refine (copyColumn_ends hA hrow (by omega)).bind fun _ h₁ h₁p => ?_
  refine (flipEl_ends h₁p.1 (by omega) (by omega)).bind fun _ h₂ h₂p => ?_
  refine (flipEl_ends h₂p.1 (by omega) (by omega)).mono fun _ h₃ h₃p => ?_
  refine ⟨⟨fun r c => if c = j then gHdpcTable P r c else A r c,
    h₃p.1.congr fun r hr c _ => ?_, fun r c hlo hhi => ?_⟩,
    h₁p.2.trans (h₂p.2.trans h₃p.2)⟩
  · by_cases hc : c = j
    · subst hc
      have hr' : r < P.H := hrow ▸ hr
      have hmt : mtTable P r c =
          if r = (flipA P c).toNat ∨ r = (flipB P c).toNat then 1 else 0 := by
        rw [mtTable, if_neg (by omega)]
      rw [if_pos rfl, gHdpcTable_step (by omega), ← hcols r (c + 1) le_rfl hj, hmt]
      by_cases ha : r = (flipA P c).toNat
      · have hb : r ≠ (flipB P c).toNat := fun heq => hne (heq ▸ ha)
        simp [Table.set, ← ha, hb, hr']
      · by_cases hb : r = (flipB P c).toNat
        · simp [Table.set, ← hb, ha, hr']
        · simp [Table.set, ha, hb, hr']
    · simp [Table.set, hc]
  · by_cases hc : c = j
    · simp only [hc, if_true]
    · simp only [hc, if_false]
      exact hcols r c (by omega) hhi

/-- The identity goes into a subview of the last columns. -/
theorem identity_ends {H : M256v} (hP : P.HdpcValid) (hA : H.Holds h A) (hrow : H.nRow = P.H)
    (hcol : H.nCol = P.L) :
    Ends (do
      let I ← H.getSubview 0 (P.Kprime + P.S) P.H P.H
      MvGen.clear I
      forRange 0 P.H fun i => I.setEl i i 1) h fun _ h' =>
        H.Holds h' (fun r c => if c < P.Kprime + P.S then A r c
          else if c = r + (P.Kprime + P.S) then 1 else 0) ∧ AgreeOff H.cells h h' := by
  have hH := hP.H_ge
  have hL := hP.L_eq
  apply (M256v.getSubview_ends (by omega) (by omega) (by omega)).bind
  rintro I h₁ ⟨hI, rfl⟩
  apply (HeapView.clear_ends (hI.holds hA)).bind
  rintro _ h₂ ⟨hclear, hagree₂⟩
  have hrowI := hI.nRow_eq
  have hcolI := hI.nCol_eq
  apply (forRange_ends (fun k h' => I.Holds h' (Table.ones fun i j => i = j ∧ i < k) ∧
    AgreeOff I.cells h₁ h') (Nat.zero_le _) ?_ ?_).mono
  · rintro _ h₃ ⟨hones, hagree₃⟩
    refine ⟨(hI.holds_patch hA hones hagree₃).congr fun r hr c hc => ?_,
      hagree₃.mono hI.cells_subset⟩
    by_cases hlt : c < P.Kprime + P.S
    · have hout : ¬ (0 ≤ r ∧ r < 0 + P.H ∧ P.Kprime + P.S ≤ c ∧ c < P.Kprime + P.S + P.H) := by
        omega
      rw [Table.patch, if_neg hout, if_pos hlt]
    · have hin : 0 ≤ r ∧ r < 0 + P.H ∧ P.Kprime + P.S ≤ c ∧ c < P.Kprime + P.S + P.H := by
        omega
      rw [Table.patch, if_pos hin, if_neg hlt]
      exact if_congr (by omega) rfl rfl
  · rintro k h₃ - hk ⟨hones, hagree₃⟩
    apply (M256v.setOne_ends hones (by omega) (by omega)).mono
    rintro _ h₄ ⟨hones', hagree₄⟩
    exact ⟨hones'.congr fun i _ j _ => if_congr (by omega) rfl rfl, hagree₃.trans hagree₄⟩
  · exact ⟨hclear.congr fun i _ j _ => by simp [Table.ones], hagree₂⟩

/-- The matrix gets the HDPC rows, whatever it held before. -/
theorem hdpcGenerateMatFaster_ends {H : M256v} (hP : P.HdpcValid) (hA : H.Holds h A)
    (hrow : H.nRow = P.H) (hcol : H.nCol = P.L) :
    Ends (hdpcGenerateMatFaster H P) h fun _ h' =>
      H.Holds h' (hdpcTable P) ∧ AgreeOff H.cells h h' := by
  have hH := hP.H_ge
  have hL := hP.L_eq
  unfold hdpcGenerateMatFaster
  rw [ends_bind, ends_ensure, ends_bind, ends_ensure]
  refine ⟨hrow, hcol, ?_⟩
  -- The product goes into a subview of the first columns.
  refine (M256v.getSubview_ends (by omega) (by omega) (by omega)).bind fun G h₁ hG => ?_
  obtain ⟨hG, rfl⟩ := hG
  refine (lastColumn_ends hP (hG.holds hA) hG.nRow_eq hG.nCol_eq).bind fun _ h₂ h₂p => ?_
  have hproduct : Ends (forDown 0 (P.Kprime + P.S - 1) fun j => do
      forRange 0 P.H fun i => do
        let v ← G.getEl i (j + 1)
        let w ← embed (gf256Mul 2 v)
        G.setEl i j w
      flipEl G (flipA P j).toNat j
      flipEl G (flipB P j).toNat j) h₂ fun _ h' =>
        ColumnsFrom G P 0 h' ∧ AgreeOff G.cells h₁ h' := by
    refine forDown_ends (fun k h' => ColumnsFrom G P k h' ∧ AgreeOff G.cells h₁ h')
      (Nat.zero_le _) (fun k h₃ _ hk hI => ?_) h₂p
    exact (previousColumn_ends hP hG.nRow_eq hG.nCol_eq (by omega) hI.1).mono
      fun _ h₄ h₄p => ⟨h₄p.1, hI.2.trans h₄p.2⟩
  refine hproduct.bind fun _ h₃ h₃p => ?_
  obtain ⟨⟨B, hB, hBcols⟩, hagree⟩ := h₃p
  have hleft := hG.holds_patch hA hB hagree
  apply (identity_ends hP hleft hrow hcol).mono
  rintro _ h₄ ⟨hH', hagree'⟩
  refine ⟨hH'.congr fun r hr c hc => ?_, (hagree.mono hG.cells_subset).trans hagree'⟩
  rw [hdpcTable]
  by_cases hlt : c < P.Kprime + P.S
  · have hin : 0 ≤ r ∧ r < 0 + P.H ∧ 0 ≤ c ∧ c < 0 + (P.Kprime + P.S) := by omega
    rw [if_pos hlt, if_pos hlt, Table.patch, if_pos hin]
    exact hBcols r c (Nat.zero_le _) hlt
  · rw [if_neg hlt, if_neg hlt]

end Generate

end TvRQ
