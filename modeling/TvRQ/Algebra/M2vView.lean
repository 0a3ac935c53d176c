/-
# GF(2) views as owners of tables

The operations of `m2v.c` keep the laws of `HeapView`, with the numbers 0 and 1
as the elements of the field of two elements.
-/

import TvRQ.Algebra.M2vSpec
import TvRQ.Algebra.MvView

namespace TvRQ

open Imperative Heap MvGen

namespace M2v

/-! ## Blocks stay in place -/

theorem keepsShape_word (M : M2v) (o i : ℕ) :
    KeepsShape (M.word o i : Prog (Heap UInt32) Ptr) :=
  fun _ => Keeps.bind (Keeps.embed _) fun _ => Keeps.pure _

theorem keepsShape_copyRow (M₁ : M2v) (r₁ : ℕ) (M : M2v) (r : ℕ) :
    KeepsShape (copyRow M₁ r₁ M r) :=
  fun sizes => Keeps.bind (Keeps.ensure _) fun _ => Keeps.bind (Keeps.ensure _) fun _ =>
    Keeps.bind (Keeps.ensure _) fun _ => Keeps.bind (Keeps.embed _) fun _ =>
      Keeps.bind (Keeps.embed _) fun _ => Keeps.forRange fun _ _ _ =>
        Keeps.bind (keepsShape_word _ _ _ sizes) fun _ =>
          Keeps.bind (keepsShape_word _ _ _ sizes) fun _ =>
            Keeps.bind (keepsShape_load _ sizes) fun _ => keepsShape_store _ _ sizes

theorem keepsShape_copyCol (M₁ : M2v) (c₁ : ℕ) (M : M2v) (c : ℕ) :
    KeepsShape (copyCol M₁ c₁ M c) :=
  fun sizes => Keeps.bind (Keeps.ensure _) fun _ => Keeps.bind (Keeps.ensure _) fun _ =>
    Keeps.bind (Keeps.ensure _) fun _ => Keeps.forRange fun _ _ _ =>
      Keeps.bind (Keeps.embed _) fun _ => Keeps.bind (keepsShape_load _ sizes) fun _ =>
        Keeps.bind (Keeps.embed _) fun _ => Keeps.bind (keepsShape_load _ sizes) fun _ =>
          keepsShape_store _ _ sizes

/-! ## The laws -/

variable {M M₁ : M2v} {h : Heap UInt32} {B : Table (ZMod 2)}

/-- A row of the view itself or of a view apart from it can be copied or added. -/
theorem Holds.source {r₁ r : ℕ} (hB : M₁.Holds h B)
    (hapart : M₁ = M ∨ Disjoint M.cells M₁.cells) (hcol : M₁.nCol = M.nCol) (hr₁ : r₁ < M₁.nRow)
    (hr : r < M.nRow) : RowSource M₁ r₁ M r h B := by
  rcases hapart with rfl | hdisj
  · exact hB.source_self hr₁
  · exact hB.source_of_disjoint hcol hr₁ hr hdisj

theorem elOf_add (a b : ZMod 2) : Int.xor (elOf a) (elOf b) = elOf (a + b) := by
  revert a b
  decide

theorem elOf_mul (a b : ZMod 2) : elOf a * elOf b = elOf (a * b) := by
  revert a b
  decide

/-- The one element that has an inverse is its own inverse. -/
theorem elOf_inv {a : ZMod 2} (ha : a ≠ 0) : elOf a⁻¹ = 1 := by
  rw [eq_one_of_ne_zero ha, inv_one]
  rfl

/-- A row, and a column, can be kept beside every matrix that fits. -/
theorem Fits.declarable (hM : M.Fits) :
    (view 1 M.nCol ⟨0, 0⟩).Fits ∧ (view M.nRow 1 ⟨0, 0⟩).Fits := by
  have hrow := hM.nRow_lt
  have hcol : M.nCol + 32 < 2 ^ 31 := hM.nCol_lt
  refine ⟨⟨Nat.one_lt_two_pow (by decide), hcol, ?_⟩, ⟨hrow, ?_, ?_⟩⟩
  · show 1 * ((M.nCol + 31) / 32) < 2 ^ 31
    omega
  · show 33 < 2 ^ 31
    decide
  · show M.nRow * 1 < 2 ^ 31
    rwa [Nat.mul_one]

instance : HeapView M2v UInt32 ℤ (ZMod 2) where
  el := elOf
  cells := cells
  Holds := Holds
  Declarable := fun n m => (view n m ⟨0, 0⟩).Fits
  el_zero := rfl
  el_one := rfl
  fadd_eq := elOf_add
  fmul_eq := fun a b => congrArg Except.ok (elOf_mul a b)
  finv_eq := fun ha => congrArg Except.ok (elOf_inv ha).symm
  holds_congr := Holds.congr
  holds_agreeOff := Holds.agreeOff
  allocated := fun hA hp => by
    obtain ⟨r, hr, k, hk, rfl⟩ := hp
    obtain ⟨w, hw, -⟩ := hA.word hr hk
    rw [hw]
    rfl
  getEl_iff := fun hA hr hc => hA.ends_getEl hr hc
  setEl_ends := setEl_ends
  swapRows_ends := swapRows_ends
  clearRow_ends := fun hA hr => (clearRow_ends hA hr).mono fun _ _ hpost =>
    ⟨hpost.1, hpost.2.mono (rowCells_subset hr)⟩
  multRow_ends := fun hA hr a => (multRow_ends hA hr a).mono fun _ _ hpost =>
    ⟨hpost.1, hpost.2.mono (rowCells_subset hr)⟩
  multaddRow_ends := fun hA hB hapart hcol hr₁ hr a =>
    (multaddRow_ends hA hcol hr₁ hr (hB.source hapart hcol hr₁ hr) a).mono
      fun _ _ hpost => ⟨hpost.1, hpost.2.mono (rowCells_subset hr)⟩
  multaddRowFrom_ends := fun hA hB hapart hcol hr₁ hr hoffs a =>
    (multaddRowFrom_ends hA hcol hr₁ hr (div_lt_rowStride hoffs)
      (hB.source hapart hcol hr₁ hr) a).mono
      fun _ _ hpost => ⟨hpost.1, hpost.2.mono (rowCells_subset hr)⟩
  copyRow_ends := fun hA hB hapart hcol hr₁ hr =>
    (copyRow_ends hA hcol hr₁ hr (hB.source hapart hcol hr₁ hr)).mono
      fun _ _ hpost => ⟨hpost.1, hpost.2.mono (rowCells_subset hr)⟩
  rowIszero_ends := rowIszero_ends
  swapCols_ends := fun hA _ hc₁ hc₂ => swapCols_ends hA hc₁ hc₂
  multColFrom_ends := fun hA hc hoffs a => multColFrom_ends hA hc hoffs a
  copyCol_ends := fun {M₁ M h A B c₁ c} hA hB hapart hrow hc₁ hc =>
    copyCol_ends hA hB.fits hrow hc₁ hc fun i h₁ T hi hT hold hagree => by
      have hi₁ : i < M₁.nRow := hi.trans_eq hrow.symm
      rcases hapart with rfl | hdisj
      · obtain ⟨w, hw, hbit⟩ := hT.element hi₁ hc₁
        refine ⟨w, hw, ?_⟩
        rw [hbit, hold]
        exact Holds.unique hA hB hi₁ hc₁
      · exact Holds.element (Holds.agreeOff hB hagree hdisj) hi₁ hc₁
  copyRow_keeps := keepsShape_copyRow
  copyCol_keeps := keepsShape_copyCol
  declarable_row := fun hA => hA.fits.declarable.1
  declarable_col := fun hA => hA.fits.declarable.2
  localView_ends := fun {n m} hfits h => by
    simp only [MvGen.localView, localView, ends_bind, ends_embed, ends_alloc]
    refine ⟨_, storageSize_eq_ok.mpr ⟨hfits.nCol_lt, hfits.words_lt, rfl⟩,
      _, make_eq_ok.mpr ⟨hfits.nCol_lt, rfl⟩, rfl, rfl, ?_, ?_, _, rfl⟩
    · rintro p ⟨r, _, k, _, rfl⟩
      rfl
    · obtain ⟨A, hA⟩ := exists_packs_view (n := n) (m := m) (p := ⟨h.blocks.size, 0⟩)
        (h := h.withBlock (Array.replicate (n * rowWords m) 0))
        (by simp [blockSize, Heap.withBlock])
      exact ⟨A, ⟨hfits.nRow_lt, hfits.nCol_lt, hfits.words_lt⟩, hA⟩
  endLocal_eq := rfl
  topView_ends := fun {M _ n} _ hn => by
    apply (getSubview_ends hn).mono
    rintro V h' ⟨hV, rfl⟩
    exact ⟨rfl, hV.nRow_eq, hV.nCol_eq, hV.cells_subset, hV.holds_top,
      fun hA hB hagree hbelow => hV.holds_of_top hA hB hagree hbelow⟩

end M2v

end TvRQ
