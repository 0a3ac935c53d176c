/-
# Bit-packed matrices against byte matrices

GF(2) is a part of GF(256), so a matrix of zeros and ones can be kept in either
form.  The operations on packed words do to it what the operations on bytes do,
whatever stands in the bits behind the last column.  This takes a row size and
indices of words of type `int`, while the byte form has indices of type `size_t`.
With more words `m2v_multadd_row_from` cannot tell where the last row ends.
-/

import TvRQ.Algebra.M256vView
import TvRQ.Algebra.M2vLu
import TvRQ.Algebra.M2vView
import TvRQ.Algebra.MvOps

namespace TvRQ

open Imperative Heap HeapView

namespace M2v

/-- A bank of matrices in both forms.  Each matrix has cells of its own and is not empty. -/
structure Pairs {ι : Type} (P : ι → M2v) (B : ι → M256v) (g : Heap UInt32 × Heap UInt8)
    (A : ι → Table (ZMod 2)) : Prop where
  nRow_eq : ∀ k, (B k).nRow = (P k).nRow
  nCol_eq : ∀ k, (B k).nCol = (P k).nCol
  packs : ∀ k, (P k).Packs g.1 (A k)
  holds : ∀ k, (B k).Holds g.2 ((A k).map ofBit)
  apart : ∀ i j, i ≠ j → Disjoint (P i).cells (P j).cells ∧ Disjoint (B i).cells (B j).cells
  rows_pos : ∀ k, 0 < (P k).nRow
  cols_pos : ∀ k, 0 < (P k).nCol

/-- The packed matrices can be made.  An operation in range returns the same in both forms
and leaves the same elements, those outside its target as they were. -/
def Simulates {ι : Type} (P : ι → M2v) (B : ι → M256v) (g : Heap UInt32 × Heap UInt8)
    (A : ι → Table (ZMod 2)) : Prop :=
  (∀ k, make (P k).nRow (P k).nCol (P k).e = .ok (P k)) ∧
    ∀ op : MatOp ι, op.InRange (fun k => (P k).nRow) (fun k => (P k).nCol) A →
      Both (op.run P) (op.run B) g fun a b g' => a = b ∧
        ∃ A', Pairs P B g' A' ∧ ∀ k i j, ¬ op.Target k i j → A' k i j = A k i j

section Simulates

variable {ι : Type} {P : ι → M2v} {B : ι → M256v} {g : Heap UInt32 × Heap UInt8}
  {A : ι → Table (ZMod 2)}

theorem Pairs.banks (hpairs : Pairs P B g A) (hfits : ∀ k, (P k).Fits) :
    Banks ofBit (fun k => (P k, B k)) g A where
  twin := fun k => ⟨hpairs.nRow_eq k, hpairs.nCol_eq k, ⟨hfits k, hpairs.packs k⟩, hpairs.holds k⟩
  apart := hpairs.apart
  rows_pos := hpairs.rows_pos
  cols_pos := hpairs.cols_pos

theorem Pairs.of_banks (hbanks : Banks ofBit (fun k => (P k, B k)) g A) : Pairs P B g A where
  nRow_eq := fun k => (hbanks.twin k).nRow_eq
  nCol_eq := fun k => (hbanks.twin k).nCol_eq
  packs := fun k => (hbanks.twin k).left.packs
  holds := fun k => (hbanks.twin k).right
  apart := hbanks.apart
  rows_pos := hbanks.rows_pos
  cols_pos := hbanks.cols_pos

/-- Adding a part of a row needs the index of the row behind the target. -/
theorem index_lt_of_multaddRowFrom {M₁ M : M2v} {r₁ offs r : ℕ} {h : Heap UInt32}
    {Q : Unit → Heap UInt32 → Prop} (hends : Ends (multaddRowFrom M₁ r₁ offs 1 M r) h Q) :
    M.rowStride * (r + 1) < 2 ^ 31 := by
  simp only [multaddRowFrom, ends_bind, ends_ensure, one_ne_zero, if_false, ends_getWord,
    ends_load, ends_store, ends_intOfSize, Nat.zero_div, Nat.add_zero] at hends
  obtain ⟨-, -, -, -, -, v, -, w, -, -, -, -, hend, -⟩ := hends
  exact hend

/-- Operations in range do the same to both forms exactly if the row size and the number of
words of every packed matrix are of type `int`. -/
theorem simulates_m256v_iff (hpairs : Pairs P B g A) : Simulates P B g A ↔
    ∀ k, (P k).nCol + bitsPerBase < 2 ^ 31 ∧ (P k).nRow * (P k).rowStride < 2 ^ 31 := by
  constructor
  · rintro ⟨hmake, hrun⟩ k
    refine ⟨(make_eq_ok.mp (hmake k)).1, ?_⟩
    have hrows := hpairs.rows_pos k
    have hlast : (P k).nRow - 1 + 1 = (P k).nRow := Nat.succ_pred_eq_of_pos hrows
    -- The operation that goes up to the end of the last row shows the number of words.
    have hboth := hrun (.multaddRowFrom k 0 0 true k ((P k).nRow - 1))
      ⟨rfl, hrows, Nat.sub_lt hrows Nat.one_pos, hpairs.cols_pos k⟩
    have hends : Ends (multaddRowFrom (P k) 0 0 1 (P k) ((P k).nRow - 1)) g.1 _ :=
      ends_bind.mp hboth
    have hlt := index_lt_of_multaddRowFrom hends
    rwa [hlast, Nat.mul_comm] at hlt
  · intro hsizes
    have hfits : ∀ k, (P k).Fits := fun k => (fits_iff (hpairs.cols_pos k)).mpr (hsizes k)
    refine ⟨fun k => (hfits k).make_eq, fun op hop => ?_⟩
    apply ((hpairs.banks hfits).run_both hop).mono
    rintro a b g' ⟨hret, A', hbanks, hframe⟩
    exact ⟨hret, A', .of_banks hbanks, hframe⟩

end Simulates

/-! ## Examples -/

/-- Two square matrices of two columns; all other bits of their words are set. -/
def junkWords (k : Fin 2) : Array UInt32 :=
  if k = 0 then #[0xFFFFFFFF, 0xFFFFFFFE] else #[0xFFFFFFFD, 0xFFFFFFFF]

/-- The two matrices in both forms, each in a block of its own. -/
def junkHeaps : Heap UInt32 × Heap UInt8 :=
  (⟨#[junkWords 0, junkWords 1]⟩,
    ⟨#[M256v.tableBytes ((rowMajor 2 (junkWords 0)).map ofBit) 2 2,
      M256v.tableBytes ((rowMajor 2 (junkWords 1)).map ofBit) 2 2]⟩)

theorem pairs_junk : Pairs (fun k : Fin 2 => view 2 2 ⟨k, 0⟩)
    (fun k => M256v.make 2 2 ⟨k, 0⟩) junkHeaps fun k => rowMajor 2 (junkWords k) where
  nRow_eq := fun _ => rfl
  nCol_eq := fun _ => rfl
  packs := fun k => by
    fin_cases k
    · exact packs_view rfl (by decide)
    · exact packs_view rfl (by decide)
  holds := fun k => by
    fin_cases k
    · exact M256v.holds_tableBytes rfl
    · exact M256v.holds_tableBytes rfl
  apart := fun i j hne =>
    have hblk : i.val ≠ j.val := fun heq => hne (Fin.ext heq)
    ⟨disjoint_cells_of_blk hblk, M256v.disjoint_cells_of_blk hblk⟩
  rows_pos := fun _ => Nat.two_pos
  cols_pos := fun _ => Nat.two_pos

/-- Solving with the first matrix in place of the second one. -/
theorem simulates_m256v_iff_junk :
    Both ((MatOp.luInvmultInplace 0 (-1) (some #[1, 0]) none 1).run fun k : Fin 2 =>
        view 2 2 ⟨k, 0⟩)
      ((MatOp.luInvmultInplace 0 (-1) (some #[1, 0]) none 1).run fun k : Fin 2 =>
        M256v.make 2 2 ⟨k, 0⟩) junkHeaps fun a b g' => a = b ∧
      ∃ A', Pairs (fun k : Fin 2 => view 2 2 ⟨k, 0⟩) (fun k => M256v.make 2 2 ⟨k, 0⟩) g' A' ∧
        ∀ k i j, k ≠ 1 → A' k i j = rowMajor 2 (junkWords k) i j := by
  have hsizes : ∀ _ : Fin 2, 2 + bitsPerBase < 2 ^ 31 ∧ 2 * 1 < 2 ^ 31 := by decide
  refine ((simulates_m256v_iff pairs_junk).mpr hsizes).2 _
    ⟨by decide, by decide, by decide, ?_, ?_, Or.inl rfl, ?_⟩
  · rintro _ ⟨⟩
    decide
  · rintro _ ⟨⟩
  · intro i hi
    have hi' : i < 2 := hi
    interval_cases i
    · decide
    · decide

/-- Two rows of zeros in both forms. -/
def zeroHeaps (m : ℕ) : Heap UInt32 × Heap UInt8 :=
  (⟨#[Array.replicate (2 * rowWords m) 0]⟩,
    ⟨#[M256v.tableBytes ((0 : Table (ZMod 2)).map ofBit) 2 m]⟩)

theorem pairs_zero {m : ℕ} (hpos : 0 < m) : Pairs (fun _ : Unit => view 2 m ⟨0, 0⟩)
    (fun _ => M256v.make 2 m ⟨0, 0⟩) (zeroHeaps m) fun _ => 0 where
  nRow_eq := fun _ => rfl
  nCol_eq := fun _ => rfl
  packs := fun _ r hr k hk => by
    have hr' : r < 2 := hr
    have hk' : k < rowWords m := hk
    have hlt : rowWords m * r + k < 2 * rowWords m := by
      have hrow := Nat.mul_le_mul_left (rowWords m) (Nat.lt_succ_iff.mp hr')
      omega
    refine ⟨0, ?_, fun b _ _ => by simp [bitOf]⟩
    simp [zeroHeaps, wordCell, view, Ptr.add, Heap.load, hlt]
  holds := fun _ => M256v.holds_tableBytes rfl
  apart := fun _ _ hne => absurd rfl hne
  rows_pos := fun _ => Nat.two_pos
  cols_pos := fun _ => hpos

/-- Rows without room for the computation of their size can be held in both forms, but no
view of them can be made in the packed one. -/
theorem not_simulates_of_wide {m : ℕ} (hm : 2 ^ 31 ≤ m + bitsPerBase) :
    ¬ Simulates (fun _ : Unit => view 2 m ⟨0, 0⟩) (fun _ => M256v.make 2 m ⟨0, 0⟩)
      (zeroHeaps m) fun _ => 0 :=
  fun hsim => absurd (make_eq_ok.mp (hsim.1 ())).1 (not_lt.mpr hm)

/-- From this number of columns on the row size wraps around to a negative one. -/
theorem not_simulates_wide :
    Pairs (fun _ : Unit => view 2 2147483617 ⟨0, 0⟩) (fun _ => M256v.make 2 2147483617 ⟨0, 0⟩)
        (zeroHeaps 2147483617) (fun _ => 0) ∧
      getRowSize 2147483617 = .error .overflow ∧
        ¬ Simulates (fun _ : Unit => view 2 2147483617 ⟨0, 0⟩)
          (fun _ => M256v.make 2 2147483617 ⟨0, 0⟩) (zeroHeaps 2147483617) fun _ => 0 :=
  ⟨pairs_zero (by norm_num), rfl, not_simulates_of_wide (by norm_num [bitsPerBase])⟩

end M2v

end TvRQ
