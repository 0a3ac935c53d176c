/-
# Tables held by GF(2) views

A view holds a table over the field of two elements when every word of the
view has the entries of its columns as its bits; the bits behind the last
column are arbitrary.  It also asks that the row size and the indices of the
words are of type `int`.
-/

import Mathlib.Algebra.Field.ZMod
import TvRQ.Algebra.M2v
import TvRQ.Lib.Table

namespace TvRQ

open Imperative Heap

/-! ## Bits of a word -/

/-- Bit `b` of a word, as an element of the field. -/
def bitOf (w : UInt32) (b : ℕ) : ZMod 2 := if w.toBitVec.getLsbD b then 1 else 0

theorem bitOf_xor (w v : UInt32) (b : ℕ) : bitOf (w ^^^ v) b = bitOf w b + bitOf v b := by
  have hbool : ∀ x y : Bool, (if (x ^^ y) then 1 else 0 : ZMod 2) =
      (if x then 1 else 0) + (if y then 1 else 0) := by decide
  simp only [bitOf, UInt32.toBitVec_xor, BitVec.getLsbD_xor, hbool]

theorem eq_one_of_ne_zero {v : ZMod 2} (hv : v ≠ 0) : v = 1 := by
  revert hv
  revert v
  decide

theorem getLsbD_getMask {b i : ℕ} (hb : b < 32) (hi : i < 32) :
    (getMask b).toBitVec.getLsbD i = decide (i = b) := by
  have htable : ∀ b < 32, ∀ i < 32, (1#32 <<< b).getLsbD i = decide (i = b) := by decide +kernel
  exact htable b hb i hi

/-- The mask of the bits from `b` on. -/
theorem getLsbD_maskFrom {b i : ℕ} (hb : b < 32) (hi : i < 32) :
    (~~~(getMask b - 1)).toBitVec.getLsbD i = decide (b ≤ i) := by
  have htable : ∀ b < 32, ∀ i < 32, (~~~(1#32 <<< b - 1#32)).getLsbD i = decide (b ≤ i) := by
    decide +kernel
  exact htable b hb i hi

theorem bitOf_maskFrom (w : UInt32) (offs : ℕ) {b : ℕ} (hb : b < 32) :
    bitOf (w &&& ~~~(getMask (getBit offs) - 1)) b =
      if offs % 32 ≤ b then bitOf w b else 0 := by
  have hbit := getLsbD_maskFrom (Nat.mod_lt offs (by omega : 0 < 32)) hb
  unfold bitOf
  rw [UInt32.toBitVec_and, BitVec.getLsbD_and, show getBit offs = offs % 32 from rfl, hbit]
  by_cases hle : offs % 32 ≤ b <;> simp [hle]

/-- The mask of the bits up to `b`. -/
theorem getLsbD_maskTo {b i : ℕ} (hb : b < 32) (hi : i < 32) :
    ((getMask b <<< 1) - 1).toBitVec.getLsbD i = decide (i ≤ b) := by
  have htable : ∀ b < 32, ∀ i < 32,
      ((getMask b <<< 1) - 1).toBitVec.getLsbD i = decide (i ≤ b) := by decide +kernel
  exact htable b hb i hi

/-- A word is zero under a mask when the bits of the mask are zero in it. -/
theorem and_eq_zero_iff (w m : UInt32) : w &&& m = 0 ↔
    ∀ b < 32, m.toBitVec.getLsbD b = true → bitOf w b = 0 := by
  rw [← UInt32.toBitVec_inj, UInt32.toBitVec_and]
  constructor
  · intro heq b _ hm
    have hbit := congrArg (fun v => v.getLsbD b) heq
    have hw : w.toBitVec.getLsbD b = false := by simpa [hm] using hbit
    simp [bitOf, hw]
  · intro hbits
    apply BitVec.eq_of_getLsbD_eq
    intro b hb
    rw [BitVec.getLsbD_and]
    cases hm : m.toBitVec.getLsbD b with
    | false => simp
    | true =>
        have hzero := hbits b hb hm
        cases hw : w.toBitVec.getLsbD b with
        | false => simp
        | true => simp [bitOf, hw] at hzero

theorem eq_zero_iff_bitOf (w : UInt32) : w = 0 ↔ ∀ b < 32, bitOf w b = 0 := by
  have hones := and_eq_zero_iff w (-1)
  rw [UInt32.and_neg_one] at hones
  have htable : ∀ b < 32, (-1 : UInt32).toBitVec.getLsbD b = true := by decide +kernel
  rw [hones]
  exact ⟨fun h b hb => h b hb (htable b hb), fun h b hb _ => h b hb⟩

/-- A word is zero up to bit `b` when all these bits are. -/
theorem and_maskTo_eq_zero_iff (w : UInt32) {b : ℕ} (hb : b < 32) :
    w &&& ((getMask b <<< 1) - 1) = 0 ↔ ∀ i ≤ b, bitOf w i = 0 := by
  rw [and_eq_zero_iff]
  constructor
  · intro hzero i hi
    apply hzero i (hi.trans_lt hb)
    rw [getLsbD_maskTo hb (hi.trans_lt hb)]
    exact decide_eq_true hi
  · intro hzero i hi hm
    rw [getLsbD_maskTo hb hi, decide_eq_true_eq] at hm
    exact hzero i hm

theorem and_getMask_ne_zero (w : UInt32) {b : ℕ} (hb : b < 32) :
    (w &&& getMask b != 0) = w.toBitVec.getLsbD b := by
  have hzero : w &&& getMask b = 0 ↔ w.toBitVec.getLsbD b = false := by
    rw [← UInt32.toBitVec_inj, UInt32.toBitVec_and]
    constructor
    · intro heq
      have hbit := congrArg (fun v => v.getLsbD b) heq
      simpa [getLsbD_getMask hb hb] using hbit
    · intro hbit
      apply BitVec.eq_of_getLsbD_eq
      intro i hi
      rw [BitVec.getLsbD_and, getLsbD_getMask hb hi]
      by_cases hib : i = b
      · simp [hib, hbit]
      · simp [hib]
  cases hbit : w.toBitVec.getLsbD b with
  | false => simp [hzero.mpr hbit]
  | true =>
      rw [bne_iff_ne]
      intro heq
      rw [hzero.mp heq] at hbit
      cases hbit

theorem getLsbD_assignMask (w : UInt32) (v : Bool) {b i : ℕ} (hb : b < 32) (hi : i < 32) :
    (assignMask w (getMask b) v).toBitVec.getLsbD i =
      if i = b then v else w.toBitVec.getLsbD i := by
  cases v with
  | false =>
      simp only [assignMask, Bool.false_eq_true, if_false, UInt32.toBitVec_and,
        UInt32.toBitVec_not, BitVec.getLsbD_and, BitVec.getLsbD_not, getLsbD_getMask hb hi]
      by_cases hib : i = b <;> simp [hib, hi]
  | true =>
      simp only [assignMask, if_true, UInt32.toBitVec_or, BitVec.getLsbD_or,
        getLsbD_getMask hb hi]
      by_cases hib : i = b <;> simp [hib]

theorem bitOf_assignMask (w : UInt32) (v : Bool) {b i : ℕ} (hb : b < 32) (hi : i < 32) :
    bitOf (assignMask w (getMask b) v) i = if i = b then (if v then 1 else 0) else bitOf w i := by
  unfold bitOf
  rw [getLsbD_assignMask w v hb hi]
  split_ifs <;> simp_all

namespace M2v

/-- The memory cell of word `k` of row `r`. -/
def wordCell (M : M2v) (r k : ℕ) : Ptr := M.e.add (M.rowStride * r + k)

/-- The cells of one row. -/
def rowCells (M : M2v) (r : ℕ) : Set Ptr := {p | ∃ k < M.rowStride, p = M.wordCell r k}

/-- The cells of one row before word `n`. -/
def rowCellsBefore (M : M2v) (r n : ℕ) : Set Ptr :=
  {p | ∃ k < n, k < M.rowStride ∧ p = M.wordCell r k}

/-- All cells of a view. -/
def cells (M : M2v) : Set Ptr := {p | ∃ r < M.nRow, ∃ k < M.rowStride, p = M.wordCell r k}

/-- The words of `M` have the entries of `A` as their bits. -/
def Packs (M : M2v) (h : Heap UInt32) (A : Table (ZMod 2)) : Prop :=
  ∀ r < M.nRow, ∀ k < M.rowStride, ∃ w, h.load (M.wordCell r k) = some w ∧
    ∀ b < 32, 32 * k + b < M.nCol → bitOf w b = A r (32 * k + b)

/-- The sizes of the matrix and the number of its words are of type `int`. -/
structure Fits (M : M2v) : Prop where
  nRow_lt : M.nRow < 2 ^ 31
  nCol_lt : M.nCol + bitsPerBase < 2 ^ 31
  words_lt : M.nRow * M.rowStride < 2 ^ 31

/-- The words have the entries of `A` as their bits, and all of them can be reached. -/
structure Holds (M : M2v) (h : Heap UInt32) (A : Table (ZMod 2)) : Prop where
  fits : M.Fits
  packs : M.Packs h A

variable {M : M2v} {h h' : Heap UInt32} {A B : Table (ZMod 2)} {r r' c c' k k' : ℕ}

theorem rowStride_eq (M : M2v) : M.rowStride = (M.nCol + 31) / 32 := M.stride_eq

theorem rowStride_pos (hpos : 0 < M.nCol) : 0 < M.rowStride := by
  rw [M.rowStride_eq]
  omega

/-! ## Making views -/

theorem make_eq_ok {n m : ℕ} {p : Ptr} :
    make n m p = .ok M ↔ m + bitsPerBase < 2 ^ 31 ∧ M = view n m p := by
  unfold make
  split
  · rename_i size hsize
    obtain ⟨hlt, rfl⟩ := getRowSize_eq_ok.mp hsize
    rw [Except.ok.injEq, eq_comm]
    exact (and_iff_right hlt).symm
  · rename_i fault hfault
    refine iff_of_false (fun heq => by cases heq) fun heq => ?_
    rw [getRowSize_eq_ok.mpr ⟨heq.1, rfl⟩] at hfault
    cases hfault

theorem storageSize_eq_ok {n m size : ℕ} : storageSize n m = .ok size ↔
    m + bitsPerBase < 2 ^ 31 ∧ n * rowWords m < 2 ^ 31 ∧ size = n * rowWords m := by
  rw [storageSize, bind_eq_ok]
  constructor
  · rintro ⟨rowSize, hrow, hsize⟩
    obtain ⟨hlt, rfl⟩ := getRowSize_eq_ok.mp hrow
    rw [intOfSize] at hsize
    split_ifs at hsize with hwords
    exact ⟨hlt, hwords, (Except.ok.inj hsize).symm⟩
  · rintro ⟨hlt, hwords, rfl⟩
    exact ⟨_, getRowSize_eq_ok.mpr ⟨hlt, rfl⟩, if_pos hwords⟩

/-- There is a column, so the number of words bounds the number of rows. -/
theorem fits_iff (hpos : 0 < M.nCol) :
    M.Fits ↔ M.nCol + bitsPerBase < 2 ^ 31 ∧ M.nRow * M.rowStride < 2 ^ 31 := by
  refine ⟨fun hM => ⟨hM.nCol_lt, hM.words_lt⟩, fun ⟨hcol, hwords⟩ => ⟨?_, hcol, hwords⟩⟩
  exact (Nat.le_mul_of_pos_right M.nRow (rowStride_pos hpos)).trans_lt hwords

theorem Fits.make_eq (hM : M.Fits) : make M.nRow M.nCol M.e = .ok M := by
  refine make_eq_ok.mpr ⟨hM.nCol_lt, ?_⟩
  obtain ⟨nRow, nCol, rowStride, e, rfl⟩ := M
  rfl

theorem ends_getWord {σ : Type} {s : σ} {Q : ℕ → σ → Prop} :
    Ends (embed (M.getWord r c)) s Q ↔
      M.rowStride * r + c / 32 < 2 ^ 31 ∧ Q (M.rowStride * r + c / 32) s :=
  ends_intOfSize

theorem ends_word {σ : Type} {s : σ} {o i : ℕ} {Q : Ptr → σ → Prop} :
    Ends (M.word o i) s Q ↔ o + i < 2 ^ 31 ∧ Q (M.e.add (o + i)) s := by
  rw [word, ends_bind, ends_intOfSize, ends_pure]

namespace Fits

/-- The words of a row, and the place behind them, have indices. -/
theorem row_lt (hM : M.Fits) (hr : r < M.nRow) : M.rowStride * r + M.rowStride < 2 ^ 31 := by
  have hrow : (r + 1) * M.rowStride ≤ M.nRow * M.rowStride := Nat.mul_le_mul_right _ hr
  rw [Nat.add_mul, one_mul, Nat.mul_comm r] at hrow
  exact hrow.trans_lt hM.words_lt

theorem ends_getWord (hM : M.Fits) (hr : r < M.nRow) (hc : c / 32 ≤ M.rowStride) {σ : Type}
    {s : σ} {Q : ℕ → σ → Prop} :
    Ends (embed (M.getWord r c)) s Q ↔ Q (M.rowStride * r + c / 32) s := by
  have hlt := hM.row_lt hr
  rw [M2v.ends_getWord]
  exact and_iff_right (by omega)

theorem ends_rowStart (hM : M.Fits) (hr : r < M.nRow) {σ : Type} {s : σ} {Q : ℕ → σ → Prop} :
    Ends (embed (M.getWord r 0)) s Q ↔ Q (M.rowStride * r) s :=
  hM.ends_getWord hr (Nat.zero_le _)

theorem ends_word (hM : M.Fits) (hr : r < M.nRow) (hk : k < M.rowStride) {σ : Type} {s : σ}
    {Q : Ptr → σ → Prop} : Ends (M.word (M.rowStride * r) k) s Q ↔ Q (M.wordCell r k) s := by
  have hlt := hM.row_lt hr
  rw [M2v.ends_word]
  exact and_iff_right (by omega)

end Fits

/-! ## Cells -/

theorem div_lt_rowStride (hc : c < M.nCol) : c / 32 < M.rowStride := by
  rw [M.rowStride_eq]
  omega

theorem add_index (M : M2v) (r k : ℕ) : M.e.add (M.rowStride * r + k) = M.wordCell r k := rfl

theorem wordCell_inj (hk : k < M.rowStride) (hk' : k' < M.rowStride) :
    M.wordCell r k = M.wordCell r' k' ↔ r = r' ∧ k = k' := by
  have hpos : 0 < M.rowStride := by omega
  rw [wordCell, wordCell, Ptr.add_inj]
  constructor
  · intro heq
    have hrow : (M.rowStride * r + k) / M.rowStride = r := by
      rw [Nat.mul_add_div hpos, Nat.div_eq_of_lt hk, add_zero]
    have hrow' : (M.rowStride * r' + k') / M.rowStride = r' := by
      rw [Nat.mul_add_div hpos, Nat.div_eq_of_lt hk', add_zero]
    have hr : r = r' := by rw [← hrow, heq, hrow']
    subst hr
    exact ⟨rfl, by omega⟩
  · rintro ⟨rfl, rfl⟩
    rfl

theorem wordCell_mem_cells (hr : r < M.nRow) (hk : k < M.rowStride) :
    M.wordCell r k ∈ M.cells :=
  ⟨r, hr, k, hk, rfl⟩

theorem wordCell_mem_rowCells (hk : k < M.rowStride) : M.wordCell r k ∈ M.rowCells r :=
  ⟨k, hk, rfl⟩

theorem wordCell_mem_rowCellsBefore {n : ℕ} (hkn : k < n) (hk : k < M.rowStride) :
    M.wordCell r k ∈ M.rowCellsBefore r n :=
  ⟨k, hkn, hk, rfl⟩

theorem rowCells_subset (hr : r < M.nRow) : M.rowCells r ⊆ M.cells := by
  rintro p ⟨k, hk, rfl⟩
  exact wordCell_mem_cells hr hk

theorem rowCellsBefore_subset (n : ℕ) : M.rowCellsBefore r n ⊆ M.rowCells r := by
  rintro p ⟨k, -, hk, rfl⟩
  exact ⟨k, hk, rfl⟩

theorem rowCellsBefore_mono {n n' : ℕ} (hn : n ≤ n') :
    M.rowCellsBefore r n ⊆ M.rowCellsBefore r n' := by
  rintro p ⟨k, hkn, hk, rfl⟩
  exact ⟨k, hkn.trans_le hn, hk, rfl⟩

/-- A cell is not among those left of it, in whichever row. -/
theorem wordCell_notMem_rowCellsBefore (hk : k < M.rowStride) :
    M.wordCell r k ∉ M.rowCellsBefore r' k := by
  rintro ⟨k', hlt, hk', heq⟩
  exact hlt.ne' ((wordCell_inj hk hk').mp heq).2

/-- Views into different blocks have no cell in common. -/
theorem disjoint_cells_of_blk {Mt : M2v} (hne : M.e.blk ≠ Mt.e.blk) :
    Disjoint M.cells Mt.cells := by
  rw [Set.disjoint_left]
  rintro p ⟨r, _, k, _, rfl⟩ ⟨r', _, k', _, heq⟩
  have hblk : (M.wordCell r k).blk = (Mt.wordCell r' k').blk := by rw [heq]
  exact hne hblk

/-! ## Held tables -/

theorem Holds.word (hA : M.Holds h A) (hr : r < M.nRow) (hk : k < M.rowStride) :
    ∃ w, h.load (M.wordCell r k) = some w ∧
      ∀ b < 32, 32 * k + b < M.nCol → bitOf w b = A r (32 * k + b) :=
  hA.packs r hr k hk

/-- The word of an element and its bit there. -/
theorem Holds.element (hA : M.Holds h A) (hr : r < M.nRow) (hc : c < M.nCol) :
    ∃ w, h.load (M.wordCell r (c / 32)) = some w ∧ bitOf w (c % 32) = A r c := by
  obtain ⟨w, hw, hbits⟩ := hA.word hr (div_lt_rowStride hc)
  have hsplit : 32 * (c / 32) + c % 32 = c := Nat.div_add_mod c 32
  refine ⟨w, hw, ?_⟩
  rw [hbits (c % 32) (Nat.mod_lt _ (by omega)) (by omega), hsplit]

/-- Only the entries inside the view matter. -/
theorem Holds.congr (hA : M.Holds h A)
    (heq : ∀ r < M.nRow, ∀ c < M.nCol, A r c = B r c) : M.Holds h B := by
  refine ⟨hA.fits, fun r hr k hk => ?_⟩
  obtain ⟨w, hw, hbits⟩ := hA.word hr hk
  exact ⟨w, hw, fun b hb hc => by rw [hbits b hb hc, heq r hr _ hc]⟩

/-- A held table is determined inside the view. -/
theorem Holds.unique (hA : M.Holds h A) (hB : M.Holds h B) (hr : r < M.nRow)
    (hc : c < M.nCol) : A r c = B r c := by
  obtain ⟨w, hw, hbit⟩ := hA.element hr hc
  obtain ⟨w', hw', hbit'⟩ := hB.element hr hc
  rw [hw] at hw'
  rw [← hbit, ← hbit', Option.some.inj hw']

/-- Writing cells outside the view changes nothing in it. -/
theorem Holds.agreeOff {cells : Set Ptr} (hA : M.Holds h A) (hagree : AgreeOff cells h h')
    (hdisj : Disjoint cells M.cells) : M.Holds h' A := by
  refine ⟨hA.fits, fun r hr k hk => ?_⟩
  rw [hagree _ fun hmem => Set.disjoint_left.mp hdisj hmem (wordCell_mem_cells hr hk)]
  exact hA.word hr hk

/-- The table of the bits of rows of `m` columns, stored one after the other. -/
def rowMajor (m : ℕ) (words : Array UInt32) : Table (ZMod 2) :=
  fun r c => bitOf (words.getD (rowWords m * r + c / 32) 0) (c % 32)

/-- A basic view of a block has the bits that the block contains. -/
theorem packs_view {n m b : ℕ} {words : Array UInt32} (hb : h.blocks[b]? = some words)
    (hsize : n * rowWords m ≤ words.size) :
    (view n m ⟨b, 0⟩).Packs h (rowMajor m words) := by
  intro r hr k hk
  have hr' : r < n := hr
  have hk' : k < rowWords m := hk
  have hlt : rowWords m * r + k < words.size := by
    have hrow : (r + 1) * rowWords m ≤ n * rowWords m := Nat.mul_le_mul_right _ hr'
    rw [Nat.add_mul, Nat.mul_comm r] at hrow
    omega
  refine ⟨words[rowWords m * r + k], ?_, fun b hb _ => ?_⟩
  · simp [wordCell, view, Ptr.add, Heap.load, hb, hlt]
  · have hdiv : (32 * k + b) / 32 = k := by omega
    have hmod : (32 * k + b) % 32 = b := by omega
    simp [rowMajor, hdiv, hmod, hlt]

/-- A basic view of allocated memory has some bits. -/
theorem exists_packs_view {n m : ℕ} {p : Ptr}
    (hsize : p.off + n * rowWords m ≤ h.blockSize p.blk) : ∃ A, (view n m p).Packs h A := by
  refine ⟨fun r c => bitOf ((h.load ((view n m p).wordCell r (c / 32))).getD 0) (c % 32),
    fun r hr k hk => ?_⟩
  have hr' : r < n := hr
  have hk' : k < rowWords m := hk
  have hrow : (r + 1) * rowWords m ≤ n * rowWords m := Nat.mul_le_mul_right _ hr'
  rw [Nat.add_mul, Nat.mul_comm r] at hrow
  have hlt : ((view n m p).wordCell r k).off < h.blockSize ((view n m p).wordCell r k).blk := by
    show p.off + (rowWords m * r + k) < h.blockSize p.blk
    omega
  obtain ⟨w, hw⟩ := exists_load hlt
  refine ⟨w, hw, fun b hb _ => ?_⟩
  have hdiv : (32 * k + b) / 32 = k := by omega
  have hmod : (32 * k + b) % 32 = b := by omega
  simp [hdiv, hmod, hw]

/-- Storing a word with the right bits. -/
theorem Holds.store (hA : M.Holds h A) (hr : r < M.nRow) (hk : k < M.rowStride) {w : UInt32}
    (hbits : ∀ b < 32, 32 * k + b < M.nCol → bitOf w b = B r (32 * k + b))
    (hrest : ∀ i < M.nRow, ∀ c < M.nCol, ¬ (i = r ∧ c / 32 = k) → B i c = A i c) :
    M.Holds (h.store (M.wordCell r k) w) B := by
  refine ⟨hA.fits, fun i hi k' hk' => ?_⟩
  by_cases heq : i = r ∧ k' = k
  · obtain ⟨rfl, rfl⟩ := heq
    obtain ⟨v, hv, -⟩ := hA.word hi hk'
    exact ⟨w, load_store_self (by rw [hv]; rfl) w, hbits⟩
  · obtain ⟨v, hv, hvbits⟩ := hA.word hi hk'
    have hne : M.wordCell i k' ≠ M.wordCell r k := fun hcell =>
      heq ((wordCell_inj hk' hk).mp hcell)
    refine ⟨v, by rw [load_store_of_ne hne, hv], fun b hb hc => ?_⟩
    rw [hvbits b hb hc, hrest i hi _ hc (by omega)]

/-- Storing a word with one bit assigned. -/
theorem Holds.assign (hA : M.Holds h A) (hr : r < M.nRow) (hc : c < M.nCol) {w : UInt32}
    (hw : h.load (M.wordCell r (c / 32)) = some w) (v : Bool) :
    M.Holds (h.store (M.wordCell r (c / 32)) (assignMask w (getMask (c % 32)) v))
      (A.set r c (if v then 1 else 0)) := by
  have hmod : c % 32 < 32 := Nat.mod_lt _ (by omega)
  refine hA.store hr (div_lt_rowStride hc) (fun b hb hcol => ?_) fun i _ j _ hne => ?_
  · obtain ⟨w', hw', hbits⟩ := hA.word hr (div_lt_rowStride hc)
    rw [hw] at hw'
    cases hw'
    rw [bitOf_assignMask w v hmod hb, hbits b hb hcol]
    have hiff : b = c % 32 ↔ 32 * (c / 32) + b = c := by omega
    simp only [Table.set, hiff, true_and]
  · have hset : ¬ (i = r ∧ j = c) := fun heq => hne ⟨heq.1, by rw [heq.2]⟩
    rw [Table.set, if_neg hset]

/-- The bit of an element as the mask shows it. -/
theorem Holds.bit (hA : M.Holds h A) (hr : r < M.nRow) (hc : c < M.nCol) {w : UInt32}
    (hw : h.load (M.wordCell r (c / 32)) = some w) :
    (if w &&& getMask (c % 32) != 0 then 1 else 0) = A r c := by
  obtain ⟨w', hw', hbit⟩ := hA.element hr hc
  rw [hw] at hw'
  cases hw'
  rw [and_getMask_ne_zero w (Nat.mod_lt _ (by omega)), ← hbit]
  rfl

/-- Exchanging two elements of a row whose bits lie in different words. -/
theorem Holds.exchange (hA : M.Holds h A) (hr : r < M.nRow) (hc : c < M.nCol) (hc' : c' < M.nCol)
    {w w' : UInt32} (hw : h.load (M.wordCell r (c / 32)) = some w)
    (hw' : h.load (M.wordCell r (c' / 32)) = some w') (hne : c' / 32 ≠ c / 32) :
    M.Holds ((h.store (M.wordCell r (c / 32))
        (assignMask w (getMask (c % 32)) (w' &&& getMask (c' % 32) != 0))).store
      (M.wordCell r (c' / 32)) (assignMask w' (getMask (c' % 32)) (w &&& getMask (c % 32) != 0)))
      ((A.set r c (A r c')).set r c' (A r c)) := by
  have hcell : M.wordCell r (c' / 32) ≠ M.wordCell r (c / 32) := fun heq =>
    hne ((wordCell_inj (div_lt_rowStride hc') (div_lt_rowStride hc)).mp heq).2
  have hfirst := hA.assign hr hc hw (w' &&& getMask (c' % 32) != 0)
  rw [hA.bit hr hc' hw'] at hfirst
  have hboth := hfirst.assign hr hc' (by rw [load_store_of_ne hcell, hw'])
    (w &&& getMask (c % 32) != 0)
  rwa [hA.bit hr hc hw] at hboth

/-- Exchanging two elements of a row whose bits lie in the same word. -/
theorem Holds.exchange_word (hA : M.Holds h A) (hr : r < M.nRow) (hc : c < M.nCol)
    (hc' : c' < M.nCol) {w : UInt32} (hw : h.load (M.wordCell r (c / 32)) = some w)
    (heq : c' / 32 = c / 32) :
    M.Holds (h.store (M.wordCell r (c / 32))
        (assignMask (assignMask w (getMask (c % 32)) (w &&& getMask (c' % 32) != 0))
          (getMask (c' % 32)) (w &&& getMask (c % 32) != 0)))
      ((A.set r c (A r c')).set r c' (A r c)) := by
  have hsome : (h.load (M.wordCell r (c / 32))).isSome := by rw [hw]; rfl
  have hfirst := hA.assign hr hc hw (w &&& getMask (c' % 32) != 0)
  rw [hA.bit hr hc' (by rw [heq, hw])] at hfirst
  have hboth := hfirst.assign hr hc' (by rw [heq, load_store_self hsome])
    (w &&& getMask (c % 32) != 0)
  rw [hA.bit hr hc hw, heq] at hboth
  -- Both bits are assigned before the word is stored once.
  refine ⟨hA.fits, fun i hi k hk => ?_⟩
  rw [← load_store_store hsome]
  exact hboth.word hi hk

end M2v

end TvRQ
