/-
# What the operations on GF(2) views do

There is one theorem for each operation.  The one of `multadd_row_from` asks that
the first word that the operation touches is a word of the row, which the code
does not check.
-/

import TvRQ.Algebra.M2vHolds
import TvRQ.Lib.TableLoop

namespace TvRQ

open Imperative Heap

namespace M2v

variable {M : M2v} {h h' : Heap UInt32} {A B : Table (ZMod 2)} {r c k : ℕ}

/-! ## Element access -/

/-- The number that `get_el` returns for an entry. -/
def elOf (v : ZMod 2) : ℤ := if v = 0 then 0 else 1

theorem elOf_eq_zero {v : ZMod 2} : elOf v = 0 ↔ v = 0 := by
  by_cases hv : v = 0 <;> simp [elOf, hv]

theorem ends_getEl {Q : ℤ → Heap UInt32 → Prop} :
    Ends (M.getEl r c) h Q ↔ r < M.nRow ∧ c < M.nCol ∧ M.rowStride * r + c / 32 < 2 ^ 31 ∧
      ∃ w, h.load (M.wordCell r (c / 32)) = some w ∧ Q (elOf (bitOf w (c % 32))) h := by
  have hmod : c % 32 < 32 := Nat.mod_lt _ (by omega)
  have hel : ∀ w : UInt32, (if w &&& getMask (getBit c) != 0 then 1 else 0 : ℤ) =
      elOf (bitOf w (c % 32)) := fun w => by
    rw [show getBit c = c % 32 from rfl, and_getMask_ne_zero w hmod]
    cases hbit : w.toBitVec.getLsbD (c % 32) <;> simp [elOf, bitOf, hbit]
  simp only [getEl, ends_bind, ends_ensure, ends_getWord, ends_load, ends_pure, hel, add_index]

/-- Reading one element. -/
theorem Holds.ends_getEl (hA : M.Holds h A) (hr : r < M.nRow) (hc : c < M.nCol)
    {Q : ℤ → Heap UInt32 → Prop} : Ends (M.getEl r c) h Q ↔ Q (elOf (A r c)) h := by
  obtain ⟨w, hw, hbit⟩ := hA.element hr hc
  have hrow := hA.fits.row_lt hr
  have hword := div_lt_rowStride hc
  rw [M2v.ends_getEl]
  constructor
  · rintro ⟨-, -, -, w', hw', hQ⟩
    rw [hw] at hw'
    cases hw'
    rwa [hbit] at hQ
  · exact fun hQ => ⟨hr, hc, by omega, w, hw, by rwa [hbit]⟩

theorem elOf_bne_zero (v : ZMod 2) : (if elOf v != 0 then 1 else 0) = v := by
  revert v
  decide

/-- Writing one element. -/
theorem setEl_ends (hA : M.Holds h A) (hr : r < M.nRow) (hc : c < M.nCol) (v : ZMod 2) :
    Ends (M.setEl r c (elOf v)) h fun _ h' =>
      M.Holds h' (A.set r c v) ∧ AgreeOff M.cells h h' := by
  obtain ⟨w, hw, -⟩ := hA.element hr hc
  simp only [setEl, ends_bind, ends_ensure, hA.fits.ends_getWord hr (div_lt_rowStride hc).le,
    ends_load, ends_store, add_index]
  refine ⟨hr, hc, w, hw, by rw [hw]; rfl, ?_,
    agreeOff_store (wordCell_mem_cells hr (div_lt_rowStride hc)) _ _⟩
  have hassign := hA.assign hr hc hw (elOf v != 0)
  rwa [elOf_bne_zero] at hassign

section Iszero

variable {w : UInt32}

/-- A word all of whose columns exist is zero when the row is zero there. -/
theorem word_eq_zero_iff (hbits : ∀ b < 32, 32 * k + b < M.nCol → bitOf w b = A r (32 * k + b))
    (hfull : 32 * k + 32 ≤ M.nCol) :
    w = 0 ↔ ∀ c, 32 * k ≤ c → c < 32 * k + 32 → A r c = 0 := by
  rw [eq_zero_iff_bitOf]
  constructor
  · intro hzero c hlo hhi
    have hbit := hbits (c - 32 * k) (by omega) (by omega)
    rw [Nat.add_sub_cancel' hlo] at hbit
    rw [← hbit, hzero _ (by omega)]
  · intro hzero b hb
    rw [hbits b hb (by omega), hzero _ (Nat.le_add_right _ b) (by omega)]

/-- The last word is zero in the columns that exist when the row is zero there. -/
theorem lastWord_eq_zero_iff (hpos : 0 < M.nCol)
    (hbits : ∀ b < 32, 32 * ((M.nCol - 1) / 32) + b < M.nCol →
      bitOf w b = A r (32 * ((M.nCol - 1) / 32) + b)) :
    w &&& ((getMask (getBit (M.nCol - 1)) <<< 1) - 1) = 0 ↔
      ∀ c, 32 * ((M.nCol - 1) / 32) ≤ c → c < M.nCol → A r c = 0 := by
  have hbit : getBit (M.nCol - 1) = (M.nCol - 1) % 32 := rfl
  have hlast : (M.nCol - 1) % 32 < 32 := Nat.mod_lt _ (by omega)
  rw [hbit, and_maskTo_eq_zero_iff w hlast]
  constructor
  · intro hzero c hlo hhi
    have hcol := hbits (c - 32 * ((M.nCol - 1) / 32)) (by omega) (by omega)
    rw [Nat.add_sub_cancel' hlo] at hcol
    rw [← hcol, hzero _ (by omega)]
  · intro hzero b hb
    rw [hbits b (hb.trans_lt hlast) (by omega), hzero _ (Nat.le_add_right _ b) (by omega)]

/-- Looking for an entry that is not zero. -/
theorem rowIszero_ends (hA : M.Holds h A) (hr : r < M.nRow) (hpos : 0 < M.nCol) :
    Ends (M.rowIszero r) h fun zero h' =>
      (zero = true ↔ ∀ c < M.nCol, A r c = 0) ∧ h' = h := by
  have hlast : (M.nCol - 1) / 32 < M.rowStride := div_lt_rowStride (by omega)
  simp only [rowIszero, ends_bind, ends_ensure]
  refine ⟨hr, ?_⟩
  simp only [hA.fits.ends_rowStart hr, hA.fits.ends_getWord hr hlast.le,
    Nat.add_sub_cancel_left, add_index]
  refine ((findRange_ends (fun k h' => h' = h ∧ ∀ c < 32 * k, A r c = 0)
    (fun _ h' => h' = h ∧ ¬ ∀ c < M.nCol, A r c = 0) (Nat.zero_le _) ?_
    ⟨rfl, fun c hc => absurd hc (by omega)⟩).mono fun hit h' hpost => ?_)
  · -- All columns of a word before the last one exist.
    rintro k h' - hk ⟨rfl, hleft⟩
    obtain ⟨w, hw, hbits⟩ := hA.word hr (hk.trans hlast)
    have hword := word_eq_zero_iff hbits (by omega)
    rw [ends_bind, ends_load]
    refine ⟨w, hw, ?_⟩
    by_cases hzero : w = 0
    · rw [if_neg (not_not.mpr hzero), ends_pure]
      refine ⟨rfl, fun c hc => ?_⟩
      by_cases hlt : c < 32 * k
      · exact hleft c hlt
      · exact hword.mp hzero c (not_lt.mp hlt) (by omega)
    · rw [if_pos hzero, ends_pure]
      exact ⟨rfl, fun hall => hzero (hword.mpr fun c _ hhi => hall c (by omega))⟩
  · cases hit with
    | some _ =>
        obtain ⟨rfl, hnot⟩ := hpost
        refine ends_pure.mpr ⟨⟨fun h => absurd h Bool.false_ne_true, fun hall => ?_⟩, rfl⟩
        exact absurd hall hnot
    | none =>
        obtain ⟨rfl, hleft⟩ := hpost
        obtain ⟨w, hw, hbits⟩ := hA.word hr hlast
        rw [ends_bind, ends_load]
        refine ⟨w, hw, ends_pure.mpr ⟨?_, rfl⟩⟩
        rw [beq_iff_eq, lastWord_eq_zero_iff hpos hbits]
        constructor
        · intro hzero c hc
          by_cases hlt : c < 32 * ((M.nCol - 1) / 32)
          · exact hleft c hlt
          · exact hzero c (not_lt.mp hlt) hc
        · intro hzero c _ hc
          exact hzero c hc

end Iszero

/-! ## Row operations -/

theorem swapRows_ends {r₁ r₂ : ℕ} (hA : M.Holds h A) (hr₁ : r₁ < M.nRow) (hr₂ : r₂ < M.nRow) :
    Ends (M.swapRows r₁ r₂) h fun _ h' =>
      M.Holds h' (A.swapRows r₁ r₂) ∧ AgreeOff M.cells h h' := by
  simp only [swapRows, ends_bind, ends_ensure]
  refine ⟨hr₁, hr₂, ?_⟩
  simp only [hA.fits.ends_rowStart hr₁, hA.fits.ends_rowStart hr₂]
  refine (forRange_ends (fun k h' => M.Holds h' (A.swapRowsBefore r₁ r₂ (32 * k)) ∧
    AgreeOff M.cells h h') (Nat.zero_le _) (fun k h₁ _ hk hI => ?_)
    ⟨by simpa using hA, AgreeOff.refl _ h⟩).mono fun _ h' hpost =>
      ⟨hpost.1.congr fun i _ j hj => Table.swapRowsBefore_of_lt A r₁ r₂ ?_, hpost.2⟩
  · obtain ⟨hT, hagree⟩ := hI
    obtain ⟨w₁, hw₁, hbits₁⟩ := hT.word hr₁ hk
    obtain ⟨w₂, hw₂, hbits₂⟩ := hT.word hr₂ hk
    have hold : ∀ i b, A.swapRowsBefore r₁ r₂ (32 * k) i (32 * k + b) = A i (32 * k + b) :=
      fun i b => Table.swapRowsBefore_of_le A r₁ r₂ (Nat.le_add_right _ _)
    -- The row stored first may be overwritten again when both rows are the same one.
    let S : Table (ZMod 2) := fun i j =>
      if i = r₁ ∧ j / 32 = k then A r₂ j else A.swapRowsBefore r₁ r₂ (32 * k) i j
    have hS : M.Holds (h₁.store (M.wordCell r₁ k) w₂) S := by
      refine hT.store hr₁ hk (fun b hb hc => ?_) fun i _ j _ hne => by simp only [S, if_neg hne]
      have hyes : r₁ = r₁ ∧ (32 * k + b) / 32 = k := ⟨rfl, by omega⟩
      simp only [S, if_pos hyes]
      rw [hbits₂ b hb hc, hold]
    have hsecond : ((h₁.store (M.wordCell r₁ k) w₂).load (M.wordCell r₂ k)).isSome := by
      obtain ⟨w, hw, -⟩ := hS.word hr₂ hk
      rw [hw]
      rfl
    simp only [ends_bind, hA.fits.ends_word hr₁ hk, hA.fits.ends_word hr₂ hk, ends_load,
      ends_store]
    refine ⟨w₁, hw₁, w₂, hw₂, by rw [hw₁]; rfl, hsecond, ?_, ?_⟩
    · refine hS.store hr₂ hk (fun b hb hc => ?_) fun i _ j _ hne => ?_
      · rw [hbits₁ b hb hc, hold, Table.swapRowsBefore_of_lt A r₁ r₂ (by omega), Table.swapRows,
          Equiv.swap_apply_right]
      · by_cases hj : j / 32 = k
        · have hi : i ≠ r₂ := fun heq => hne ⟨heq, hj⟩
          have hle : 32 * k ≤ j := by omega
          rw [Table.swapRowsBefore_of_lt A r₁ r₂ (by omega)]
          by_cases hi₁ : i = r₁
          · simp [S, hj, hi₁, Table.swapRows]
          · simp [S, hi₁, Table.swapRows, Equiv.swap_apply_of_ne_of_ne hi₁ hi,
              Table.swapRowsBefore_of_le A r₁ r₂ hle]
        · have hiff : j < 32 * (k + 1) ↔ j < 32 * k := by omega
          simp only [S, Table.swapRowsBefore, hiff, hj, and_false, if_false]
    · exact (hagree.trans (agreeOff_store (wordCell_mem_cells hr₁ hk) _ _)).trans
        (agreeOff_store (wordCell_mem_cells hr₂ hk) _ _)
  · have hj' := div_lt_rowStride hj
    omega

/-- The bits of word `k` of a row with entries `v`. -/
def WordOf (n : ℕ) (v : ℕ → ZMod 2) (k : ℕ) (w : UInt32) : Prop :=
  ∀ b < 32, 32 * k + b < n → bitOf w b = v (32 * k + b)

/-- Row `r₁` of `M₁` has the entries of `B`, and each of its words survives the
writes to row `rt` of `Mt` that come before it is read. -/
structure RowSource (M₁ : M2v) (r₁ : ℕ) (Mt : M2v) (rt : ℕ) (h : Heap UInt32)
    (B : Table (ZMod 2)) : Prop where
  row_lt : M₁.rowStride * r₁ + Mt.rowStride < 2 ^ 31
  word : ∀ k < Mt.rowStride, ∀ h₁, AgreeOff (Mt.rowCellsBefore rt k) h h₁ →
    ∃ w, h₁.load (M₁.wordCell r₁ k) = some w ∧ WordOf Mt.nCol (B r₁) k w

namespace RowSource

variable {M₁ Mt : M2v} {r₁ rt : ℕ} {s : Heap UInt32}

theorem ends_getWord (hsrc : RowSource M₁ r₁ Mt rt h B) (hc : c / 32 ≤ Mt.rowStride)
    {Q : ℕ → Heap UInt32 → Prop} :
    Ends (embed (M₁.getWord r₁ c)) s Q ↔ Q (M₁.rowStride * r₁ + c / 32) s := by
  have hlt := hsrc.row_lt
  rw [M2v.ends_getWord]
  exact and_iff_right (by omega)

theorem ends_rowStart (hsrc : RowSource M₁ r₁ Mt rt h B) {Q : ℕ → Heap UInt32 → Prop} :
    Ends (embed (M₁.getWord r₁ 0)) s Q ↔ Q (M₁.rowStride * r₁) s :=
  hsrc.ends_getWord (Nat.zero_le _)

theorem ends_word (hsrc : RowSource M₁ r₁ Mt rt h B) (hk : k < Mt.rowStride)
    {Q : Ptr → Heap UInt32 → Prop} :
    Ends (M₁.word (M₁.rowStride * r₁) k) s Q ↔ Q (M₁.wordCell r₁ k) s := by
  have hlt := hsrc.row_lt
  rw [M2v.ends_word]
  exact and_iff_right (by omega)

end RowSource

/-- A row of the same view survives, also when it is row `rt` itself. -/
theorem Holds.source_self {r₁ rt : ℕ} (hA : M.Holds h A) (hr₁ : r₁ < M.nRow) :
    RowSource M r₁ M rt h A := by
  refine ⟨hA.fits.row_lt hr₁, fun k hk h₁ hagree => ?_⟩
  rw [hagree _ (wordCell_notMem_rowCellsBefore hk)]
  exact hA.word hr₁ hk

/-- A row of a view without a common cell survives. -/
theorem Holds.source_of_disjoint {M₁ Mt : M2v} {r₁ rt : ℕ} (hB : M₁.Holds h B)
    (hcol : M₁.nCol = Mt.nCol) (hr₁ : r₁ < M₁.nRow) (hrt : rt < Mt.nRow)
    (hdisj : Disjoint Mt.cells M₁.cells) : RowSource M₁ r₁ Mt rt h B := by
  have hstride : M₁.rowStride = Mt.rowStride := by
    rw [M₁.rowStride_eq, Mt.rowStride_eq, hcol]
  refine ⟨hstride ▸ hB.fits.row_lt hr₁, fun k hk h₁ hagree => ?_⟩
  have hkeep := hB.agreeOff
    (hagree.mono ((rowCellsBefore_subset k).trans (rowCells_subset hrt))) hdisj
  obtain ⟨w, hw, hbits⟩ := hkeep.word hr₁ (hstride ▸ hk)
  exact ⟨w, hw, fun b hb hc => hbits b hb (hcol ▸ hc)⟩

/-- A loop whose pass `i` replaces word `q + i` of row `r` alone. -/
theorem rowLoop_ends (q : ℕ) {body : ℕ → Prog (Heap UInt32) Unit} (f : ℕ → ZMod 2)
    (hA : M.Holds h A) (hr : r < M.nRow)
    (hbody : ∀ i h₁ w, q + i < M.rowStride → AgreeOff (M.rowCellsBefore r (q + i)) h h₁ →
      h₁.load (M.wordCell r (q + i)) = some w → WordOf M.nCol (A r) (q + i) w →
      Ends (body i) h₁ fun _ h₂ => ∃ w', WordOf M.nCol f (q + i) w' ∧
        h₂ = h₁.store (M.wordCell r (q + i)) w') :
    Ends (forRange 0 (M.rowStride - q) body) h fun _ h' =>
      M.Holds h' (fun i j => if i = r ∧ q ≤ j / 32 then f j else A i j) ∧
        AgreeOff (M.rowCells r) h h' := by
  let T : ℕ → Table (ZMod 2) := fun k i j =>
    if i = r ∧ q ≤ j / 32 ∧ j / 32 < q + k then f j else A i j
  refine (forRange_ends (fun k h' => M.Holds h' (T k) ∧
    AgreeOff (M.rowCellsBefore r (q + k)) h h') (Nat.zero_le _) (fun k h₁ _ hk hI => ?_)
    ⟨?_, AgreeOff.refl _ h⟩).mono fun _ h' hpost =>
      ⟨hpost.1.congr fun i _ j hj => ?_, hpost.2.mono (rowCellsBefore_subset _)⟩
  · obtain ⟨hT, hagree⟩ := hI
    have hword : q + k < M.rowStride := by omega
    obtain ⟨w, hw, hbits⟩ := hT.word hr hword
    have hold : WordOf M.nCol (A r) (q + k) w := fun b hb hc => by
      have hout : ¬ (r = r ∧ q ≤ (32 * (q + k) + b) / 32 ∧ (32 * (q + k) + b) / 32 < q + k) := by
        omega
      rw [hbits b hb hc]
      exact if_neg hout
    refine (hbody k h₁ w hword hagree hw hold).mono fun _ h₂ hstep => ?_
    obtain ⟨w', hw', rfl⟩ := hstep
    refine ⟨hT.store hr hword (fun b hb hc => ?_) fun i _ j _ hne => ?_, ?_⟩
    · have hin : r = r ∧ q ≤ (32 * (q + k) + b) / 32 ∧
          (32 * (q + k) + b) / 32 < q + (k + 1) := by omega
      rw [hw' b hb hc]
      exact (if_pos hin).symm
    · have hiff : (i = r ∧ q ≤ j / 32 ∧ j / 32 < q + (k + 1)) ↔
          (i = r ∧ q ≤ j / 32 ∧ j / 32 < q + k) := by omega
      simp only [T, hiff]
    · exact (hagree.mono (rowCellsBefore_mono (by omega))).trans
        (agreeOff_store (wordCell_mem_rowCellsBefore (by omega) hword) _ _)
  · refine hA.congr fun i _ j _ => ?_
    have hempty : ¬ (i = r ∧ q ≤ j / 32 ∧ j / 32 < q + 0) := by omega
    simp only [T, if_neg hempty]
  · have hlt := div_lt_rowStride hj
    have hiff : (i = r ∧ q ≤ j / 32 ∧ j / 32 < q + (M.rowStride - q)) ↔
        (i = r ∧ q ≤ j / 32) := by omega
    simp only [T, hiff]

theorem clearRow_ends (hA : M.Holds h A) (hr : r < M.nRow) :
    Ends (M.clearRow r) h fun _ h' =>
      M.Holds h' (A.clearRow r) ∧ AgreeOff (M.rowCells r) h h' := by
  simp only [clearRow, ends_bind, ends_ensure]
  refine ⟨hr, ?_⟩
  rw [hA.fits.ends_rowStart hr]
  refine (rowLoop_ends 0 (fun _ => 0) hA hr fun i h₁ w hi _ hw _ => ?_).mono
    fun _ h' hpost => ⟨hpost.1.congr fun i _ j _ => ?_, hpost.2⟩
  · rw [Nat.zero_add] at hi hw ⊢
    rw [ends_bind, hA.fits.ends_word hr hi]
    exact ends_store.mpr ⟨by rw [hw]; rfl, 0, fun b _ _ => by simp [bitOf], rfl⟩
  · simp [Table.clearRow]

/-- Only zero and one are there to multiply with, and one changes nothing. -/
theorem multRow_ends (hA : M.Holds h A) (hr : r < M.nRow) (α : ZMod 2) :
    Ends (M.multRow r (elOf α)) h fun _ h' =>
      M.Holds h' (A.multRow r α) ∧ AgreeOff (M.rowCells r) h h' := by
  unfold multRow
  by_cases hα : α = 0
  · rw [if_pos (elOf_eq_zero.mpr hα)]
    refine (clearRow_ends hA hr).mono fun _ h' hpost => ⟨hpost.1.congr fun i _ j _ => ?_, hpost.2⟩
    simp [Table.clearRow, Table.multRow, hα]
  · rw [if_neg fun heq => hα (elOf_eq_zero.mp heq)]
    refine ends_pure.mpr ⟨hA.congr fun i _ j _ => ?_, AgreeOff.refl _ h⟩
    by_cases hi : i = r
    · simp [Table.multRow, hi, eq_one_of_ne_zero hα]
    · simp [Table.multRow, hi]

/-- Copying a row whose entries survive the writes to row `rt`. -/
theorem copyRow_ends {M₁ Mt : M2v} {r₁ rt : ℕ} (hA : Mt.Holds h A) (hcol : M₁.nCol = Mt.nCol)
    (hr₁ : r₁ < M₁.nRow) (hrt : rt < Mt.nRow) (hsrc : RowSource M₁ r₁ Mt rt h B) :
    Ends (copyRow M₁ r₁ Mt rt) h fun _ h' =>
      Mt.Holds h' (Table.copyRow B r₁ A rt) ∧ AgreeOff (Mt.rowCells rt) h h' := by
  simp only [copyRow, ends_bind, ends_ensure]
  refine ⟨hcol, hr₁, hrt, ?_⟩
  rw [hsrc.ends_rowStart, hA.fits.ends_rowStart hrt]
  refine (rowLoop_ends 0 (B r₁) hA hrt fun i h₁ w hi hagree hw _ => ?_).mono
    fun _ h' hpost => ⟨hpost.1.congr fun i _ j _ => ?_, hpost.2⟩
  · rw [Nat.zero_add] at hi hagree hw ⊢
    obtain ⟨v, hv, hbits⟩ := hsrc.word i hi h₁ hagree
    simp only [ends_bind, hsrc.ends_word hi, hA.fits.ends_word hrt hi, ends_load, ends_store]
    exact ⟨v, hv, by rw [hw]; rfl, v, hbits, rfl⟩
  · simp [Table.copyRow]

theorem addWord_ends {M₁ Mt : M2v} {o₁ ot i : ℕ} {v w : UInt32} (h₁ : o₁ + i < 2 ^ 31)
    (ht : ot + i < 2 ^ 31) (hv : h.load (M₁.e.add (o₁ + i)) = some v)
    (hw : h.load (Mt.e.add (ot + i)) = some w) :
    Ends (addWord M₁ o₁ Mt ot i) h fun _ h' => h' = h.store (Mt.e.add (ot + i)) (w ^^^ v) := by
  simp only [addWord, ends_bind, ends_word, ends_load, ends_store]
  exact ⟨h₁, ht, v, hv, w, hw, by rw [hw]; rfl, rfl⟩

/-- Adding words of a row whose entries survive the writes to row `rt`. -/
theorem addWords_ends {M₁ Mt : M2v} {r₁ rt q : ℕ} {body : ℕ → Prog (Heap UInt32) Unit}
    (hA : Mt.Holds h A) (hrt : rt < Mt.nRow)
    (hsrc : ∀ k, q ≤ k → k < Mt.rowStride → ∀ h₁, AgreeOff (Mt.rowCellsBefore rt k) h h₁ →
      ∃ w, h₁.load (M₁.wordCell r₁ k) = some w ∧ WordOf Mt.nCol (B r₁) k w)
    (hbody : ∀ i s v w, q + i < Mt.rowStride → s.load (M₁.wordCell r₁ (q + i)) = some v →
      s.load (Mt.wordCell rt (q + i)) = some w →
        Ends (body i) s fun _ s' => s' = s.store (Mt.wordCell rt (q + i)) (w ^^^ v)) :
    Ends (forRange 0 (Mt.rowStride - q) body) h fun _ h' =>
        Mt.Holds h' (fun i j => if i = rt ∧ q ≤ j / 32 then A i j + B r₁ j else A i j) ∧
          AgreeOff (Mt.rowCells rt) h h' := by
  refine (rowLoop_ends q (fun j => A rt j + B r₁ j) hA hrt
    fun i h₁ w hi hagree hw hwbits => ?_).mono
    fun _ h' hpost => ⟨hpost.1.congr fun i _ j _ => ?_, hpost.2⟩
  · obtain ⟨v, hv, hvbits⟩ := hsrc (q + i) (Nat.le_add_right q i) hi h₁ hagree
    apply (hbody i h₁ v w hi hv hw).mono
    rintro _ h₂ rfl
    refine ⟨_, fun b hb hc => ?_, rfl⟩
    rw [bitOf_xor, hvbits b hb hc, hwbits b hb hc]
  · by_cases hij : i = rt ∧ q ≤ j / 32
    · rw [if_pos hij, if_pos hij, hij.1]
    · rw [if_neg hij, if_neg hij]

theorem multaddRow_ends {M₁ Mt : M2v} {r₁ rt : ℕ} (hA : Mt.Holds h A)
    (hcol : M₁.nCol = Mt.nCol) (hr₁ : r₁ < M₁.nRow) (hrt : rt < Mt.nRow)
    (hsrc : RowSource M₁ r₁ Mt rt h B) (α : ZMod 2) :
    Ends (multaddRow M₁ r₁ (elOf α) Mt rt) h fun _ h' =>
      Mt.Holds h' (Table.multaddRowFrom B r₁ 0 α A rt) ∧ AgreeOff (Mt.rowCells rt) h h' := by
  simp only [multaddRow, ends_bind, ends_ensure]
  refine ⟨hcol, hr₁, hrt, ?_⟩
  by_cases hα : α = 0
  · rw [if_pos (elOf_eq_zero.mpr hα)]
    refine ends_pure.mpr ⟨hA.congr fun i _ j _ => ?_, AgreeOff.refl _ h⟩
    simp [Table.multaddRowFrom, hα]
  · rw [if_neg fun heq => hα (elOf_eq_zero.mp heq)]
    rw [ends_bind, hsrc.ends_rowStart, ends_bind, hA.fits.ends_rowStart hrt]
    have hlt := hA.fits.row_lt hrt
    have hlt₁ := hsrc.row_lt
    refine (addWords_ends (q := 0) hA hrt (fun k _ => hsrc.word k)
      fun i s v w hi hv hw => ?_).mono fun _ h' hpost => ⟨hpost.1.congr fun i _ j _ => ?_, hpost.2⟩
    · rw [Nat.zero_add] at hi hv hw ⊢
      exact addWord_ends (by omega) (by omega) hv hw
    · simp [Table.multaddRowFrom, eq_one_of_ne_zero hα]

/-- Adding a row to a row from column `offs` on, when the word of this column is a
word of the row. -/
theorem multaddRowFrom_ends {M₁ Mt : M2v} {r₁ rt offs : ℕ} (hA : Mt.Holds h A)
    (hcol : M₁.nCol = Mt.nCol) (hr₁ : r₁ < M₁.nRow) (hrt : rt < Mt.nRow)
    (hoffs : offs / 32 < Mt.rowStride) (hsrc : RowSource M₁ r₁ Mt rt h B) (α : ZMod 2) :
    Ends (multaddRowFrom M₁ r₁ offs (elOf α) Mt rt) h fun _ h' =>
      Mt.Holds h' (Table.multaddRowFrom B r₁ offs α A rt) ∧ AgreeOff (Mt.rowCells rt) h h' := by
  simp only [multaddRowFrom, ends_bind, ends_ensure]
  refine ⟨hcol, hr₁, hrt, ?_⟩
  by_cases hα : α = 0
  · rw [if_pos (elOf_eq_zero.mpr hα)]
    refine ends_pure.mpr ⟨hA.congr fun i _ j _ => ?_, AgreeOff.refl _ h⟩
    simp [Table.multaddRowFrom, hα]
  have hα1 : α = 1 := eq_one_of_ne_zero hα
  subst hα1
  rw [if_neg fun heq => hα (elOf_eq_zero.mp heq)]
  obtain ⟨q, hq⟩ : ∃ q, q = offs / 32 := ⟨_, rfl⟩
  rw [← hq] at hoffs
  have haddr : ∀ (M : M2v) r k, M.e.add (M.rowStride * r + q + 1 + k) = M.wordCell r (q + 1 + k) :=
    fun M r k => by simp [wordCell, Nat.add_assoc]
  have hlt := hA.fits.row_lt hrt
  have hlt₁ := hsrc.row_lt
  have hend : Mt.rowStride * (rt + 1) = Mt.rowStride * rt + Mt.rowStride := Nat.mul_succ _ _
  have hcount : Mt.rowStride * (rt + 1) - (Mt.rowStride * rt + q + 1) =
      Mt.rowStride - (q + 1) := by omega
  obtain ⟨v, hv, hvbits⟩ := hsrc.word q hoffs h (AgreeOff.refl _ h)
  obtain ⟨w, hw, hwbits⟩ := hA.word hrt hoffs
  rw [ends_bind, hsrc.ends_getWord (hq ▸ hoffs.le), ends_bind,
    hA.fits.ends_getWord hrt (hq ▸ hoffs.le), ← hq]
  simp only [ends_bind, ends_load, ends_store, ends_intOfSize, ends_getWord, Nat.zero_div,
    Nat.add_zero, hcount, add_index]
  refine ⟨v, hv, w, hw, by rw [hw]; rfl, by omega, by omega, by omega, ?_⟩
  -- The first word takes part from the bit of column `offs` on.
  have hfirst : Mt.Holds
      (h.store (Mt.wordCell rt q) (w ^^^ (v &&& ~~~(getMask (getBit offs) - 1))))
      (fun i j => if i = rt ∧ offs ≤ j ∧ j / 32 = q then A i j + B r₁ j else A i j) := by
    refine hA.store hrt hoffs (fun b hb hc => ?_) fun i _ j _ hij => if_neg (by omega)
    rw [bitOf_xor, bitOf_maskFrom v offs hb, hvbits b hb hc, hwbits b hb hc]
    by_cases hle : offs % 32 ≤ b
    · rw [if_pos hle, if_pos (by omega)]
    · rw [if_neg hle, if_neg (by omega), add_zero]
  have hrest : ∀ k, q + 1 ≤ k → k < Mt.rowStride → ∀ h₁, AgreeOff (Mt.rowCellsBefore rt k)
      (h.store (Mt.wordCell rt q) (w ^^^ (v &&& ~~~(getMask (getBit offs) - 1)))) h₁ →
        ∃ w, h₁.load (M₁.wordCell r₁ k) = some w ∧ WordOf Mt.nCol (B r₁) k w := by
    intro k hqk hk h₁ hagree
    refine hsrc.word k hk h₁ (AgreeOff.trans ?_ hagree)
    exact agreeOff_store (wordCell_mem_rowCellsBefore hqk hoffs) _ _
  refine (addWords_ends hfirst hrt hrest fun i s v w hi hv hw => ?_).mono
    fun _ h' hpost => ⟨hpost.1.congr fun i _ j _ => ?_, ?_⟩
  · rw [← haddr] at hv hw ⊢
    apply (addWord_ends (by omega) (by omega) hv hw).bind
    rintro _ s' rfl
    simp only [ends_bind, ends_intOfSize, ends_pure]
    exact ⟨by omega, by omega, trivial⟩
  · by_cases hij : i = rt ∧ q + 1 ≤ j / 32
    · rw [if_pos hij, if_neg (by omega)]
      have hin : i = rt ∧ offs ≤ j := by omega
      simp [Table.multaddRowFrom, hin]
    · rw [if_neg hij]
      by_cases hin : i = rt ∧ offs ≤ j
      · rw [if_pos (by omega)]
        simp [Table.multaddRowFrom, hin]
      · rw [if_neg (by omega)]
        simp [Table.multaddRowFrom, hin]
  · exact (agreeOff_store (wordCell_mem_rowCells hoffs) _ _).trans hpost.2

/-! ## Column operations -/

theorem swapCols_ends {c₁ c₂ : ℕ} (hA : M.Holds h A) (hc₁ : c₁ < M.nCol) (hc₂ : c₂ < M.nCol) :
    Ends (M.swapCols c₁ c₂) h fun _ h' =>
      M.Holds h' (A.swapCols c₁ c₂) ∧ AgreeOff M.cells h h' := by
  have hword : ∀ {c}, c < M.nCol → ∀ {i s} {Q : Ptr → Heap UInt32 → Prop}, i < M.nRow →
      (Ends (M.word (i * M.rowStride) (c / 32)) s Q ↔ Q (M.wordCell i (c / 32)) s) :=
    fun hc i s Q hi => by
      rw [Nat.mul_comm]
      exact hA.fits.ends_word hi (div_lt_rowStride hc)
  have hfirst : ∀ {c}, c < M.nCol → ∀ {Q : ℕ → Heap UInt32 → Prop},
      (Ends (embed (M.getWord 0 c)) h Q ↔ Q (c / 32) h) := fun {c} hc Q => by
    have hlt := hA.fits.nCol_lt
    rw [ends_getWord, Nat.mul_zero, Nat.zero_add]
    exact and_iff_right (by omega)
  have hbit : ∀ c, getBit c = c % 32 := fun _ => rfl
  -- Both loops below exchange two entries of one row in each pass.
  have hrun : ∀ body : ℕ → Prog (Heap UInt32) Unit,
      (∀ k h₁ T, k < M.nRow → M.Holds h₁ T → Ends (body k) h₁ fun _ h₂ =>
        M.Holds h₂ ((T.set k c₁ (T k c₂)).set k c₂ (T k c₁)) ∧ AgreeOff M.cells h₁ h₂) →
      Ends (forRange 0 M.nRow body) h fun _ h' =>
        M.Holds h' (A.swapCols c₁ c₂) ∧ AgreeOff M.cells h h' := fun body hbody =>
    swapColsLoop_ends (R := fun h' T => M.Holds h' T ∧ AgreeOff M.cells h h')
      (fun hT heq => ⟨hT.1.congr heq, hT.2⟩) ⟨hA, AgreeOff.refl _ h⟩ fun k h₁ T hk hT =>
        (hbody k h₁ T hk hT.1).mono fun _ _ hpost => ⟨hpost.1, hT.2.trans hpost.2⟩
  simp only [swapCols, ends_bind, ends_ensure, hfirst hc₁, hfirst hc₂, hbit]
  refine ⟨hc₁, hc₂, ?_⟩
  split_ifs with hne
  · refine hrun _ fun k h₁ T hk hT => ?_
    obtain ⟨w₁, hw₁, -⟩ := hT.element hk hc₁
    obtain ⟨w₂, hw₂, -⟩ := hT.element hk hc₂
    have hcell : M.wordCell k (c₂ / 32) ≠ M.wordCell k (c₁ / 32) := fun heq =>
      hne ((wordCell_inj (div_lt_rowStride hc₂) (div_lt_rowStride hc₁)).mp heq).2.symm
    simp only [ends_bind, hword hc₁ hk, hword hc₂ hk, ends_load, ends_store]
    refine ⟨w₁, hw₁, w₂, hw₂, by rw [hw₁]; rfl, by rw [load_store_of_ne hcell, hw₂]; rfl,
      hT.exchange hk hc₁ hc₂ hw₁ hw₂ (Ne.symm hne), ?_⟩
    exact (agreeOff_store (wordCell_mem_cells hk (div_lt_rowStride hc₁)) _ _).trans
      (agreeOff_store (wordCell_mem_cells hk (div_lt_rowStride hc₂)) _ _)
  · refine hrun _ fun k h₁ T hk hT => ?_
    obtain ⟨w, hw, -⟩ := hT.element hk hc₁
    simp only [ends_bind, hword hc₁ hk, ends_load, ends_store]
    exact ⟨w, hw, by rw [hw]; rfl, hT.exchange_word hk hc₁ hc₂ hw (not_not.mp hne).symm,
      agreeOff_store (wordCell_mem_cells hk (div_lt_rowStride hc₁)) _ _⟩

theorem multColFrom_ends {offs : ℕ} (hA : M.Holds h A) (hc : c < M.nCol)
    (hoffs : offs ≤ M.nRow) (α : ZMod 2) :
    Ends (M.multColFrom c offs (elOf α)) h fun _ h' =>
      M.Holds h' (A.multColFrom c offs α) ∧ AgreeOff M.cells h h' := by
  simp only [multColFrom, ends_bind, ends_ensure]
  refine ⟨hc, hoffs, ?_⟩
  by_cases hα : α = 0
  · rw [if_neg (not_not.mpr (elOf_eq_zero.mpr hα))]
    refine (colLoop_ends (R := fun h' T => M.Holds h' T ∧ AgreeOff M.cells h h')
      (fun hT heq => ⟨hT.1.congr heq, hT.2⟩) (c := c) hoffs (fun _ => 0)
      ⟨hA, AgreeOff.refl _ h⟩ fun i h₁ T _ hi hT _ => ?_).mono
      fun _ h' hpost => ⟨hpost.1.congr fun i _ j _ => ?_, hpost.2⟩
    · obtain ⟨w, hw, -⟩ := hT.1.element hi hc
      rw [ends_bind, hA.fits.ends_getWord hi (div_lt_rowStride hc).le, add_index, ends_bind,
        ends_load]
      refine ⟨w, hw, ends_store.mpr ⟨by rw [hw]; rfl, hT.1.assign hi hc hw false, ?_⟩⟩
      exact hT.2.trans (agreeOff_store (wordCell_mem_cells hi (div_lt_rowStride hc)) _ _)
    · simp [Table.multColFrom, hα]
  · -- Only zero and one are there to multiply with, and one changes nothing.
    rw [if_pos fun heq => hα (elOf_eq_zero.mp heq)]
    refine ends_pure.mpr ⟨hA.congr fun i _ j _ => ?_, AgreeOff.refl _ h⟩
    by_cases hij : j = c ∧ offs ≤ i
    · simp [Table.multColFrom, eq_one_of_ne_zero hα, hij]
    · simp [Table.multColFrom, hij]

/-- Copying a column whose entries are there when their row comes. -/
theorem copyCol_ends {M₁ Mt : M2v} {c₁ ct : ℕ} (hA : Mt.Holds h A) (hM₁ : M₁.Fits)
    (hrow : M₁.nRow = Mt.nRow)
    (hc₁ : c₁ < M₁.nCol) (hct : ct < Mt.nCol)
    (hsrc : ∀ i h₁ T, i < Mt.nRow → Mt.Holds h₁ T → T i = A i → AgreeOff Mt.cells h h₁ →
      ∃ w, h₁.load (M₁.wordCell i (c₁ / 32)) = some w ∧ bitOf w (c₁ % 32) = B i c₁) :
    Ends (copyCol M₁ c₁ Mt ct) h fun _ h' =>
      Mt.Holds h' (Table.copyCol B c₁ A ct) ∧ AgreeOff Mt.cells h h' := by
  have hbit : ∀ c, getBit c = c % 32 := fun _ => rfl
  simp only [copyCol, ends_bind, ends_ensure, hrow, hbit]
  refine ⟨trivial, hc₁, hct, ?_⟩
  refine (colLoop_ends (R := fun h' T => Mt.Holds h' T ∧ AgreeOff Mt.cells h h')
    (fun hT heq => ⟨hT.1.congr heq, hT.2⟩) (c := ct) (Nat.zero_le _) (fun i => B i c₁)
    ⟨hA, AgreeOff.refl _ h⟩ fun i h₁ T _ hi hT hold => ?_).mono
    fun _ h' hpost => ⟨hpost.1.congr fun i _ j _ => ?_, hpost.2⟩
  · obtain ⟨w₁, hw₁, hbit₁⟩ := hsrc i h₁ T hi hT.1 hold hT.2
    obtain ⟨w, hw, -⟩ := hT.1.element hi hct
    simp only [ends_bind, hM₁.ends_getWord (hi.trans_eq hrow.symm) (div_lt_rowStride hc₁).le,
      hA.fits.ends_getWord hi (div_lt_rowStride hct).le, add_index, ends_load, ends_store]
    refine ⟨w₁, hw₁, w, hw, by rw [hw]; rfl, ?_,
      hT.2.trans (agreeOff_store (wordCell_mem_cells hi (div_lt_rowStride hct)) _ _)⟩
    have hassign := hT.1.assign hi hct hw (w₁ &&& getMask (c₁ % 32) != 0)
    rw [and_getMask_ne_zero w₁ (Nat.mod_lt _ (by omega))] at hassign ⊢
    rwa [← hbit₁]
  · simp [Table.copyCol]

/-! ## Subviews -/

/-- `V` is the view of the first `n` rows of `M`. -/
structure IsTop (V M : M2v) (n : ℕ) : Prop where
  nRow_eq : V.nRow = n
  nCol_eq : V.nCol = M.nCol
  row_le : n ≤ M.nRow
  wordCell_eq : ∀ r k, V.wordCell r k = M.wordCell r k

theorem getSubview_ends {n : ℕ} (hn : n ≤ M.nRow) :
    Ends (M.getSubview 0 0 n M.nCol) h fun V h' => IsTop V M n ∧ h' = h := by
  simp only [getSubview, ends_bind, ends_ensure, ends_intOfSize, ends_pure]
  refine ⟨trivial, trivial, by omega, by omega, ⟨rfl, rfl, hn, fun r k => ?_⟩, trivial⟩
  simp [wordCell, Ptr.add]

namespace IsTop

variable {V : M2v} {n : ℕ}

theorem rowStride_eq (hV : IsTop V M n) : V.rowStride = M.rowStride := by
  rw [V.rowStride_eq, M.rowStride_eq, hV.nCol_eq]

theorem cells_subset (hV : IsTop V M n) : V.cells ⊆ M.cells := by
  rintro p ⟨r, hr, k, hk, rfl⟩
  have := hV.row_le
  rw [hV.nRow_eq] at hr
  rw [hV.rowStride_eq] at hk
  rw [hV.wordCell_eq]
  exact wordCell_mem_cells (by omega) hk

theorem fits (hV : IsTop V M n) (hM : M.Fits) : V.Fits where
  nRow_lt := by
    rw [hV.nRow_eq]
    exact hV.row_le.trans_lt hM.nRow_lt
  nCol_lt := hV.nCol_eq ▸ hM.nCol_lt
  words_lt := by
    rw [hV.nRow_eq, hV.rowStride_eq]
    exact (Nat.mul_le_mul_right _ hV.row_le).trans_lt hM.words_lt

/-- The first rows hold the same table. -/
theorem holds_top (hV : IsTop V M n) (hA : M.Holds h A) : V.Holds h A := by
  refine ⟨hV.fits hA.fits, fun r hr k hk => ?_⟩
  have := hV.row_le
  rw [hV.nRow_eq] at hr
  rw [hV.rowStride_eq] at hk
  rw [hV.wordCell_eq, hV.nCol_eq]
  exact hA.word (by omega) hk

/-- Writing the first rows gives the new table if it agrees with the old one below. -/
theorem holds_of_top (hV : IsTop V M n) (hA : M.Holds h A) (hB : V.Holds h' B)
    (hagree : AgreeOff V.cells h h') (hbelow : ∀ r, n ≤ r → B r = A r) : M.Holds h' B := by
  refine ⟨hA.fits, fun r hr k hk => ?_⟩
  by_cases hlt : r < n
  · have hword := hB.word (hV.nRow_eq ▸ hlt) (hV.rowStride_eq ▸ hk)
    rwa [hV.wordCell_eq, hV.nCol_eq] at hword
  · have hout : M.wordCell r k ∉ V.cells := by
      rintro ⟨r', hr', k', hk', heq⟩
      rw [hV.nRow_eq] at hr'
      rw [hV.rowStride_eq] at hk'
      rw [hV.wordCell_eq] at heq
      have := ((wordCell_inj hk hk').mp heq).1
      omega
    rw [hagree _ hout, hbelow r (by omega)]
    exact hA.word hr hk

end IsTop

end M2v

end TvRQ
