/-
# What the operations on GF(256) views do

A view holds a table when every cell of the view contains the entry of the
table at its place.  For each operation of `M256v` there is one theorem here:
it reaches no fault, the view holds the table after the corresponding
operation of `Table`, and the heap is unchanged off the cells that the
operation may write.  Nothing after this module unfolds an operation.

The two-view operations ask that each entry of the source row survives until it
is read, which holds inside one view and between two views without a common
cell.
-/

import TvRQ.Algebra.M256v
import TvRQ.Lib.TableLoop

namespace TvRQ

open Imperative Heap

namespace M256v

/-- The memory cell of an element. -/
def cell (M : M256v) (r c : ℕ) : Ptr := M.e.add (r * M.rstride + c)

/-- The cells of one row. -/
def rowCells (M : M256v) (r : ℕ) : Set Ptr := {p | ∃ c < M.nCol, p = M.cell r c}

/-- The cells of one row before column `k`. -/
def rowCellsBefore (M : M256v) (r k : ℕ) : Set Ptr := {p | ∃ c < k, c < M.nCol ∧ p = M.cell r c}

/-- All cells of a view. -/
def cells (M : M256v) : Set Ptr := {p | ∃ r < M.nRow, ∃ c < M.nCol, p = M.cell r c}

/-- The cells of `M` contain the entries of `A`. -/
def Holds (M : M256v) (h : Heap UInt8) (A : Table GF256) : Prop :=
  ∀ r < M.nRow, ∀ c < M.nCol, h.load (M.cell r c) = some (A r c).byte

variable {M M₁ Mt : M256v} {h h' : Heap UInt8} {A B : Table GF256} {r r' c c' : ℕ}

/-! ## Cells -/

theorem cell_inj (hc : c < M.nCol) (hc' : c' < M.nCol) :
    M.cell r c = M.cell r' c' ↔ r = r' ∧ c = c' := by
  have hlt : c < M.rstride := hc.trans_le M.wide
  have hlt' : c' < M.rstride := hc'.trans_le M.wide
  have hpos : 0 < M.rstride := by omega
  rw [cell, cell, Ptr.add_inj]
  constructor
  · intro heq
    have hrow : (r * M.rstride + c) / M.rstride = r := by
      rw [mul_comm, Nat.mul_add_div hpos, Nat.div_eq_of_lt hlt, add_zero]
    have hrow' : (r' * M.rstride + c') / M.rstride = r' := by
      rw [mul_comm, Nat.mul_add_div hpos, Nat.div_eq_of_lt hlt', add_zero]
    have hr : r = r' := by rw [← hrow, heq, hrow']
    subst hr
    exact ⟨rfl, by omega⟩
  · rintro ⟨rfl, rfl⟩
    rfl

/-- Elements of different columns are in different cells, whatever their rows are. -/
theorem cell_ne_of_lt (hlt : c < c') (hc' : c' < M.nCol) : M.cell r c ≠ M.cell r' c' :=
  fun heq => hlt.ne ((cell_inj (hlt.trans hc') hc').mp heq).2

theorem cell_mem_rowCells (hc : c < M.nCol) : M.cell r c ∈ M.rowCells r := ⟨c, hc, rfl⟩

theorem cell_mem_cells (hr : r < M.nRow) (hc : c < M.nCol) : M.cell r c ∈ M.cells :=
  ⟨r, hr, c, hc, rfl⟩

theorem rowCells_subset (hr : r < M.nRow) : M.rowCells r ⊆ M.cells := by
  rintro p ⟨c, hc, rfl⟩
  exact cell_mem_cells hr hc

theorem rowCellsBefore_subset (k : ℕ) : M.rowCellsBefore r k ⊆ M.rowCells r := by
  rintro p ⟨c, -, hc, rfl⟩
  exact cell_mem_rowCells hc

theorem rowCellsBefore_mono {k k' : ℕ} (hk : k ≤ k') :
    M.rowCellsBefore r k ⊆ M.rowCellsBefore r k' := by
  rintro p ⟨c, hck, hc, rfl⟩
  exact ⟨c, hck.trans_le hk, hc, rfl⟩

/-- A cell is not among those left of it, in whichever row. -/
theorem cell_notMem_rowCellsBefore (hc : c < M.nCol) : M.cell r c ∉ M.rowCellsBefore r' c := by
  rintro ⟨c', hlt, -, heq⟩
  exact cell_ne_of_lt hlt hc heq.symm

/-- Views into different blocks have no cell in common. -/
theorem disjoint_cells_of_blk (hne : M.e.blk ≠ Mt.e.blk) : Disjoint M.cells Mt.cells := by
  rw [Set.disjoint_left]
  rintro p ⟨r, _, c, _, rfl⟩ ⟨r', _, c', _, heq⟩
  have hblk : (M.cell r c).blk = (Mt.cell r' c').blk := by rw [heq]
  exact hne hblk

/-! ## Held tables -/

theorem Holds.load (hA : M.Holds h A) (hr : r < M.nRow) (hc : c < M.nCol) :
    h.load (M.cell r c) = some (A r c).byte :=
  hA r hr c hc

/-- Only the entries inside the view matter. -/
theorem Holds.congr (hA : M.Holds h A)
    (heq : ∀ r < M.nRow, ∀ c < M.nCol, A r c = B r c) : M.Holds h B := by
  intro r hr c hc
  rw [hA.load hr hc, heq r hr c hc]

/-- A held table is determined inside the view. -/
theorem Holds.unique (hA : M.Holds h A) (hB : M.Holds h B) (hr : r < M.nRow)
    (hc : c < M.nCol) : A r c = B r c := by
  have hbyte := (hA.load hr hc).symm.trans (hB.load hr hc)
  exact GF256.ext_iff'.mpr (Option.some.inj hbyte)

/-- Writing cells outside the view changes nothing in it. -/
theorem Holds.agreeOff {cells : Set Ptr} (hA : M.Holds h A) (hagree : AgreeOff cells h h')
    (hdisj : Disjoint cells M.cells) : M.Holds h' A := by
  intro r hr c hc
  rw [hagree _ fun hmem => Set.disjoint_left.mp hdisj hmem (cell_mem_cells hr hc)]
  exact hA.load hr hc

/-- Row `r` of the view has the entries of `A`. -/
def HoldsRow (M : M256v) (h : Heap UInt8) (A : Table GF256) (r : ℕ) : Prop :=
  ∀ c < M.nCol, h.load (M.cell r c) = some (A r c).byte

theorem Holds.row (hA : M.Holds h A) (hr : r < M.nRow) : M.HoldsRow h A r :=
  fun _ hc => hA.load hr hc

theorem HoldsRow.agreeOff {cells : Set Ptr} (hA : M.HoldsRow h A r) (hr : r < M.nRow)
    (hagree : AgreeOff cells h h') (hdisj : Disjoint cells M.cells) : M.HoldsRow h' A r := by
  intro c hc
  rw [hagree _ fun hmem => Set.disjoint_left.mp hdisj hmem (cell_mem_cells hr hc)]
  exact hA c hc

/-- A view holds the changed table after one of its cells was written. -/
theorem Holds.wrote (hA : M.Holds h A) (hr : r < M.nRow) (hc : c < M.nCol) {v : GF256}
    (hw : Wrote (M.cell r c) v.byte h h') : M.Holds h' (A.set r c v) := by
  intro i hi j hj
  by_cases heq : i = r ∧ j = c
  · obtain ⟨rfl, rfl⟩ := heq
    rw [hw.load_eq]
    simp [Table.set]
  · have hne : M.cell i j ∉ ({M.cell r c} : Set Ptr) := fun hmem =>
      heq ((cell_inj hj hc).mp hmem)
    rw [hw.agreeOff _ hne, hA.load hi hj]
    simp [Table.set, heq]

theorem Holds.store (hA : M.Holds h A) (hr : r < M.nRow) (hc : c < M.nCol) (v : GF256) :
    M.Holds (h.store (M.cell r c) v.byte) (A.set r c v) :=
  hA.wrote hr hc (wrote_store (by rw [hA.load hr hc]; rfl) v.byte)

/-- The table whose rows of `m` entries are stored one after the other. -/
def rowMajor (m : ℕ) (bytes : Array UInt8) : Table GF256 :=
  fun r c => ⟨bytes.getD (r * m + c) 0⟩

/-- A basic view of a block holds what the block contains. -/
theorem holds_make {n m b : ℕ} {bytes : Array UInt8} (hb : h.blocks[b]? = some bytes)
    (hsize : n * m ≤ bytes.size) : (make n m ⟨b, 0⟩).Holds h (rowMajor m bytes) := by
  intro r hr c hc
  have hr' : r < n := hr
  have hc' : c < m := hc
  have hlt : r * m + c < bytes.size := by
    have hrow : (r + 1) * m ≤ n * m := Nat.mul_le_mul_right m hr'
    rw [Nat.add_mul] at hrow
    omega
  have hload : h.load ⟨b, r * m + c⟩ = some bytes[r * m + c] := by
    simp [Heap.load, hb, hlt]
  rw [cell, make, Ptr.add, Nat.zero_add, hload, rowMajor, Array.getD_eq_getD_getElem?,
    Array.getElem?_eq_getElem hlt]
  rfl

/-- What is in memory under a view. -/
def contents (M : M256v) (h : Heap UInt8) : Table GF256 :=
  fun r c => ⟨(h.load (M.cell r c)).getD 0⟩

/-- A row of a basic view may lie in allocated memory when the rows behind it do not. -/
theorem holdsRow_make {n m : ℕ} {p : Ptr} (hsize : p.off + (r + 1) * m ≤ h.blockSize p.blk) :
    (make n m p).HoldsRow h ((make n m p).contents h) r := by
  intro c hc
  have hc' : c < m := hc
  rw [Nat.add_mul] at hsize
  have hlt : ((make n m p).cell r c).off < h.blockSize ((make n m p).cell r c).blk := by
    show p.off + (r * m + c) < h.blockSize p.blk
    omega
  obtain ⟨v, hv⟩ := exists_load hlt
  rw [contents, hv]
  rfl

/-- A basic view of allocated memory holds some table. -/
theorem exists_holds_make {n m : ℕ} {p : Ptr} (hsize : p.off + n * m ≤ h.blockSize p.blk) :
    ∃ A, (make n m p).Holds h A := by
  refine ⟨(make n m p).contents h, fun r hr => holdsRow_make ?_⟩
  have hrow : (r + 1) * m ≤ n * m := Nat.mul_le_mul_right m hr
  omega

/-- The bytes of a block that stores the first `n` rows of `A`. -/
def tableBytes (A : Table GF256) (n m : ℕ) : Array UInt8 :=
  (Array.range (n * m)).map fun i => (A (i / m) (i % m)).byte

theorem holds_tableBytes {n m b : ℕ} (hb : h.blocks[b]? = some (tableBytes A n m)) :
    (make n m ⟨b, 0⟩).Holds h A := by
  refine (holds_make hb (by simp [tableBytes])).congr fun r hr c hc => ?_
  have hr' : r < n := hr
  have hc' : c < m := hc
  have hlt : r * m + c < n * m := by
    have hrow : (r + 1) * m ≤ n * m := Nat.mul_le_mul_right m hr'
    rw [Nat.add_mul] at hrow
    omega
  have hdiv : (r * m + c) / m = r := by
    rw [Nat.mul_comm, Nat.mul_add_div (by omega), Nat.div_eq_of_lt hc', Nat.add_zero]
  have hmod : (r * m + c) % m = c := by
    rw [Nat.mul_comm, Nat.mul_add_mod, Nat.mod_eq_of_lt hc']
  simp [rowMajor, tableBytes, hlt, hdiv, hmod]

/-! ## Element access -/

theorem ends_getElOffs {Q : ℕ → Heap UInt8 → Prop} :
    Ends (M.getElOffs r c) h Q ↔ r < M.nRow ∧ c ≤ M.nCol ∧ Q (r * M.rstride + c) h := by
  simp only [getElOffs, ends_bind, ends_ensure, ends_pure]

theorem ends_getEl {Q : UInt8 → Heap UInt8 → Prop} :
    Ends (M.getEl r c) h Q ↔
      r < M.nRow ∧ c ≤ M.nCol ∧ ∃ v, h.load (M.cell r c) = some v ∧ Q v h := by
  simp only [getEl, ends_bind, ends_getElOffs, ends_load]
  rfl

theorem ends_setEl {v : UInt8} {Q : Unit → Heap UInt8 → Prop} :
    Ends (M.setEl r c v) h Q ↔
      r < M.nRow ∧ c ≤ M.nCol ∧ (h.load (M.cell r c)).isSome ∧ Q () (h.store (M.cell r c) v) := by
  simp only [setEl, ends_bind, ends_getElOffs, ends_store]
  rfl

/-- Reading one element. -/
theorem Holds.ends_getEl (hA : M.Holds h A) (hr : r < M.nRow) (hc : c < M.nCol)
    {Q : UInt8 → Heap UInt8 → Prop} : Ends (M.getEl r c) h Q ↔ Q (A r c).byte h := by
  simp [M256v.ends_getEl, hr, hc.le, hA.load hr hc]

/-- Writing one element. -/
theorem setEl_ends (hA : M.Holds h A) (hr : r < M.nRow) (hc : c < M.nCol) (v : GF256) :
    Ends (M.setEl r c v.byte) h fun _ h' =>
      M.Holds h' (A.set r c v) ∧ AgreeOff (M.rowCells r) h h' :=
  ends_setEl.mpr ⟨hr, hc.le, by rw [hA.load hr hc]; rfl, hA.store hr hc v,
    agreeOff_store (cell_mem_rowCells hc) h _⟩

/-- Putting a one into a matrix of zeros and ones. -/
theorem setOne_ends {p : ℕ → ℕ → Prop} [∀ i j, Decidable (p i j)]
    (hA : M.Holds h (Table.ones p)) (hr : r < M.nRow) (hc : c < M.nCol) :
    Ends (M.setEl r c 1) h fun _ h' =>
      M.Holds h' (Table.ones fun i j => (i = r ∧ j = c) ∨ p i j) ∧ AgreeOff M.cells h h' := by
  refine (setEl_ends hA hr hc 1).mono fun _ h' hpost =>
    ⟨?_, hpost.2.mono (rowCells_subset hr)⟩
  rw [← Table.set_ones]
  exact hpost.1

/-- Looking for an entry that is not zero. -/
theorem rowIszero_ends (hA : M.Holds h A) (hr : r < M.nRow) :
    Ends (M.rowIszero r) h fun zero h' =>
      (zero = true ↔ ∀ c < M.nCol, A r c = 0) ∧ h' = h := by
  unfold rowIszero
  refine (findRange_ends (fun k h' => h' = h ∧ ∀ c < k, A r c = 0)
    (fun _ h' => h' = h ∧ ∃ c < M.nCol, A r c ≠ 0) (Nat.zero_le _) ?_
    ⟨rfl, fun c hc => absurd hc (Nat.not_lt_zero c)⟩).bind fun hit h' hpost => ?_
  · rintro c h' - hc ⟨rfl, hleft⟩
    rw [ends_bind, hA.ends_getEl hr hc, ends_pure]
    have hbyte : (A r c).byte ≠ 0 ↔ A r c ≠ 0 := not_congr GF256.ext_iff'.symm
    simp only [hbyte]
    by_cases hzero : A r c = 0
    · rw [if_neg (not_not.mpr hzero)]
      refine ⟨rfl, fun c' hc' => ?_⟩
      rcases Nat.lt_succ_iff_lt_or_eq.mp hc' with hlt | rfl
      · exact hleft c' hlt
      · exact hzero
    · rw [if_pos hzero]
      exact ⟨rfl, c, hc, hzero⟩
  · cases hit with
    | none => exact ends_pure.mpr ⟨by simpa using hpost.2, hpost.1⟩
    | some _ =>
        obtain ⟨rfl, c, hc, hne⟩ := hpost
        exact ends_pure.mpr ⟨by simpa using ⟨c, hc, hne⟩, rfl⟩

/-! ## One element at a time -/

section Element

variable {α v w : GF256}

theorem setEl_wrote {x : UInt8} (hold : h.load (M.cell r c) = some x) (hr : r < M.nRow)
    (hc : c < M.nCol) (y : UInt8) : Ends (M.setEl r c y) h fun _ => Wrote (M.cell r c) y h := by
  have hsome : (h.load (M.cell r c)).isSome := by rw [hold]; rfl
  exact ends_setEl.mpr ⟨hr, hc.le, hsome, wrote_store hsome y⟩

/-- A logarithm fits into the byte in which `multRow` keeps it. -/
theorem log_toNat {alpha : UInt8} (halpha : alpha ≠ 0) :
    ((UInt8.ofInt (gf256Log alpha)).toNat : ℤ) = gf256Log alpha := by
  have hlt := index_lt halpha
  rw [gf256Log_of_ne_zero halpha]
  simp [UInt8.ofInt]
  omega

/-- Multiplying an element through its logarithm, where a zero is left alone. -/
theorem scaleEl_wrote (hold : h.load (M.cell r c) = some v.byte) (hr : r < M.nRow)
    (hc : c < M.nCol) (hα : α.byte ≠ 0) :
    Ends (do
      let v ← M.getEl r c
      if v ≠ 0 then do
        let w ← embed (gf256Exp (gf256Log v + gf256Log α.byte))
        M.setEl r c w
      else
        pure ()) h fun _ => Wrote (M.cell r c) (α * v).byte h := by
  refine ends_bind.mpr (ends_getEl.mpr ⟨hr, hc.le, _, hold, ?_⟩)
  by_cases hv : v.byte = 0
  · have hzero : v = 0 := GF256.ext_iff'.mpr hv
    rw [if_neg (not_not.mpr hv), ends_pure]
    apply wrote_self
    rw [hold, hzero, mul_zero]
  · have hv0 : v ≠ 0 := fun heq => hv (GF256.ext_iff'.mp heq)
    have hα0 : α ≠ 0 := fun heq => hα (GF256.ext_iff'.mp heq)
    rw [if_pos hv, ends_bind, ends_embed, mul_comm α v]
    exact ⟨_, gf256Exp_log_add hv0 hα0, setEl_wrote hold hr hc _⟩

/-- Adding a multiple of an element through its logarithm, where a zero is skipped. -/
theorem addEl_wrote {r₁ : ℕ} (hsrc : h.load (M₁.cell r₁ c) = some v.byte)
    (hold : h.load (M.cell r c) = some w.byte) (hα : α.byte ≠ 0) :
    Ends (do
      let ve ← load (M₁.cell r₁ c)
      if ve ≠ 0 then do
        let p ← embed (gf256Exp (gf256Log α.byte + gf256Log ve))
        let w ← load (M.cell r c)
        store (M.cell r c) (w ^^^ p)
      else
        pure ()) h fun _ => Wrote (M.cell r c) (w + α * v).byte h := by
  refine ends_bind.mpr (ends_load.mpr ⟨_, hsrc, ?_⟩)
  by_cases hv : v.byte = 0
  · have hzero : v = 0 := GF256.ext_iff'.mpr hv
    rw [if_neg (not_not.mpr hv), ends_pure]
    apply wrote_self
    rw [hold, hzero, mul_zero, add_zero]
  · have hv0 : v ≠ 0 := fun heq => hv (GF256.ext_iff'.mp heq)
    have hα0 : α ≠ 0 := fun heq => hα (GF256.ext_iff'.mp heq)
    have hsome : (h.load (M.cell r c)).isSome := by rw [hold]; rfl
    rw [if_pos hv, ends_bind, ends_embed]
    refine ⟨_, gf256Exp_log_add hα0 hv0, ?_⟩
    rw [ends_bind, ends_load]
    exact ⟨_, hold, ends_store.mpr ⟨hsome, wrote_store hsome _⟩⟩

/-- Adding an element needs no logarithm. -/
theorem addOneEl_wrote {r₁ : ℕ} (hsrc : h.load (M₁.cell r₁ c) = some v.byte)
    (hold : h.load (M.cell r c) = some w.byte) :
    Ends (do
      let v ← load (M₁.cell r₁ c)
      let w ← load (M.cell r c)
      store (M.cell r c) (w ^^^ v)) h fun _ => Wrote (M.cell r c) (w + v).byte h := by
  have hsome : (h.load (M.cell r c)).isSome := by rw [hold]; rfl
  rw [ends_bind, ends_load]
  refine ⟨_, hsrc, ?_⟩
  rw [ends_bind, ends_load]
  exact ⟨_, hold, ends_store.mpr ⟨hsome, wrote_store hsome _⟩⟩

end Element

/-! ## Loops along a row or a column -/

/-- A loop whose pass `i` replaces the entry `offs + i` of row `r` alone. -/
theorem rowLoop_ends (offs : ℕ) {body : ℕ → Prog (Heap UInt8) Unit} (f : ℕ → GF256)
    (hA : M.Holds h A) (hr : r < M.nRow)
    (hbody : ∀ i h₁, offs + i < M.nCol → AgreeOff (M.rowCellsBefore r (offs + i)) h h₁ →
      h₁.load (M.cell r (offs + i)) = some (A r (offs + i)).byte →
      Ends (body i) h₁ fun _ => Wrote (M.cell r (offs + i)) (f (offs + i)).byte h₁) :
    Ends (forRange 0 (M.nCol - offs) body) h fun _ h' =>
      M.Holds h' (fun i j => if i = r ∧ offs ≤ j then f j else A i j) ∧
        AgreeOff (M.rowCells r) h h' := by
  let T : ℕ → Table GF256 := fun k i j => if i = r ∧ offs ≤ j ∧ j < offs + k then f j else A i j
  have hloop : Ends (forRange 0 (M.nCol - offs) body) h fun _ h' =>
      M.Holds h' (T (M.nCol - offs)) ∧
        AgreeOff (M.rowCellsBefore r (offs + (M.nCol - offs))) h h' := by
    refine forRange_ends (fun k h' => M.Holds h' (T k) ∧
      AgreeOff (M.rowCellsBefore r (offs + k)) h h')
      (Nat.zero_le _) (fun k h₁ _ hk hI => ?_) ⟨?_, AgreeOff.refl _ h⟩
    · obtain ⟨hT, hagree⟩ := hI
      have hcol : offs + k < M.nCol := by omega
      have hold : h₁.load (M.cell r (offs + k)) = some (A r (offs + k)).byte := by
        rw [hT.load hr hcol]
        simp [T]
      refine (hbody k h₁ hcol hagree hold).mono fun _ h₂ hstep => ⟨?_, ?_⟩
      · intro i hi j hj
        by_cases heq : i = r ∧ j = offs + k
        · obtain ⟨rfl, rfl⟩ := heq
          rw [hstep.load_eq]
          simp [T]
        · have hne : M.cell i j ∉ ({M.cell r (offs + k)} : Set Ptr) := fun hmem =>
            heq ((cell_inj hj hcol).mp hmem)
          rw [hstep.agreeOff _ hne, hT.load hi hj]
          congr 2
          have hiff : (i = r ∧ offs ≤ j ∧ j < offs + (k + 1)) ↔
              (i = r ∧ offs ≤ j ∧ j < offs + k) := by omega
          simp only [T, hiff]
      · refine (hagree.mono (rowCellsBefore_mono (by omega))).trans (hstep.agreeOff.mono ?_)
        rintro p rfl
        exact ⟨offs + k, by omega, hcol, rfl⟩
    · refine hA.congr fun i _ j _ => ?_
      have hempty : ¬ (i = r ∧ offs ≤ j ∧ j < offs + 0) := by omega
      simp only [T, if_neg hempty]
  refine hloop.mono fun _ h' hpost => ⟨hpost.1.congr fun i _ j hj => ?_,
    hpost.2.mono (rowCellsBefore_subset _)⟩
  have hiff : (i = r ∧ offs ≤ j ∧ j < offs + (M.nCol - offs)) ↔ (i = r ∧ offs ≤ j) := by omega
  simp only [T, hiff]

/-- A loop over row numbers whose pass replaces one entry of column `c` alone. -/
theorem colLoop_ends {offs : ℕ} {body : ℕ → Prog (Heap UInt8) Unit} (f : ℕ → GF256)
    (hA : M.Holds h A) (hoffs : offs ≤ M.nRow)
    (hbody : ∀ i h₁ T, offs ≤ i → i < M.nRow → M.Holds h₁ T → T i = A i →
      AgreeOff M.cells h h₁ → Ends (body i) h₁ fun _ h₂ => M.Holds h₂ (T.set i c (f i)) ∧
        AgreeOff (M.rowCells i) h₁ h₂) :
    Ends (forRange offs M.nRow body) h fun _ h' =>
      M.Holds h' (fun i j => if j = c ∧ offs ≤ i then f i else A i j) ∧
        AgreeOff M.cells h h' := by
  refine Imperative.colLoop_ends (R := fun h' T => M.Holds h' T ∧ AgreeOff M.cells h h')
    (fun hT heq => ⟨hT.1.congr heq, hT.2⟩) hoffs f ⟨hA, AgreeOff.refl _ h⟩
    fun i h₁ T hlo hi hT hrow => ?_
  exact (hbody i h₁ T hlo hi hT.1 hrow hT.2).mono fun _ h₂ hstep =>
    ⟨hstep.1, hT.2.trans (hstep.2.mono (rowCells_subset hi))⟩

/-- Exchanging two elements. -/
theorem exchange_ends {r₁ r₂ c₁ c₂ : ℕ} (hA : M.Holds h A) (hr₁ : r₁ < M.nRow)
    (hc₁ : c₁ < M.nCol) (hr₂ : r₂ < M.nRow) (hc₂ : c₂ < M.nCol)
    (hne : ¬ (r₁ = r₂ ∧ c₁ = c₂)) :
    Ends (do
      let sw ← load (M.cell r₁ c₁)
      let v ← load (M.cell r₂ c₂)
      store (M.cell r₁ c₁) v
      store (M.cell r₂ c₂) sw) h fun _ h' =>
        M.Holds h' ((A.set r₁ c₁ (A r₂ c₂)).set r₂ c₂ (A r₁ c₁)) ∧ AgreeOff M.cells h h' := by
  have h₁ := hA.load hr₁ hc₁
  have h₂ := hA.load hr₂ hc₂
  have hcell : M.cell r₂ c₂ ≠ M.cell r₁ c₁ := fun heq => by
    have := (cell_inj hc₂ hc₁).mp heq
    exact hne ⟨this.1.symm, this.2.symm⟩
  simp only [ends_bind, ends_load, ends_store]
  refine ⟨_, h₁, _, h₂, by rw [h₁]; rfl, ?_, ?_, ?_⟩
  · rw [load_store_of_ne hcell, h₂]
    rfl
  · exact (hA.store hr₁ hc₁ _).store hr₂ hc₂ _
  · exact (agreeOff_store (cell_mem_cells hr₁ hc₁) _ _).trans
      (agreeOff_store (cell_mem_cells hr₂ hc₂) _ _)

/-! ## Row operations -/

theorem swapRows_ends {r₁ r₂ : ℕ} (hA : M.Holds h A) (hr₁ : r₁ < M.nRow) (hr₂ : r₂ < M.nRow) :
    Ends (M.swapRows r₁ r₂) h fun _ h' =>
      M.Holds h' (A.swapRows r₁ r₂) ∧ AgreeOff M.cells h h' := by
  unfold swapRows
  split_ifs with heq
  · subst heq
    simpa using ⟨hA, AgreeOff.refl _ h⟩
  simp only [ends_bind, ends_getElOffs, add_zero]
  refine ⟨hr₁, Nat.zero_le _, hr₂, Nat.zero_le _, ?_⟩
  refine (forRange_ends (fun k h' => M.Holds h' (A.swapRowsBefore r₁ r₂ k) ∧
    AgreeOff M.cells h h') (Nat.zero_le _) (fun k h₁ _ hk hI => ?_)
    ⟨by simpa using hA, AgreeOff.refl _ h⟩).mono fun _ h' hpost =>
      ⟨hpost.1.congr fun i _ j hj => Table.swapRowsBefore_of_lt A r₁ r₂ hj, hpost.2⟩
  refine (exchange_ends hI.1 hr₁ hk hr₂ hk fun hboth => heq hboth.1).mono fun _ h₂ hpost =>
    ⟨?_, hI.2.trans hpost.2⟩
  rw [← Table.swapRowsBefore_succ, ← Table.swapRowsBefore_of_le A r₁ r₂ le_rfl,
    ← Table.swapRowsBefore_of_le A r₁ r₂ le_rfl]
  exact hpost.1

theorem clearRow_ends (hA : M.Holds h A) (hr : r < M.nRow) :
    Ends (M.clearRow r) h fun _ h' =>
      M.Holds h' (A.clearRow r) ∧ AgreeOff (M.rowCells r) h h' := by
  refine (rowLoop_ends 0 (fun _ => 0) hA hr fun i h₁ hi _ hold => ?_).mono
    fun _ h' hpost => ⟨hpost.1.congr fun i _ j _ => ?_, hpost.2⟩
  · rw [zero_add] at hi hold ⊢
    exact setEl_wrote hold hr hi 0
  · simp [Table.clearRow]

theorem multRow_ends (hA : M.Holds h A) (hr : r < M.nRow) (α : GF256) :
    Ends (M.multRow r α.byte) h fun _ h' =>
      M.Holds h' (A.multRow r α) ∧ AgreeOff (M.rowCells r) h h' := by
  unfold multRow
  split_ifs with hα
  · refine (clearRow_ends hA hr).mono fun _ h' hpost => ⟨hpost.1.congr fun i _ j _ => ?_, hpost.2⟩
    have hzero : α = 0 := GF256.ext_iff'.mpr hα
    simp [Table.clearRow, Table.multRow, hzero]
  · refine (rowLoop_ends 0 (fun j => α * A r j) hA hr fun i h₁ hi _ hold => ?_).mono
      fun _ h' hpost => ⟨hpost.1.congr fun i _ j _ => ?_, hpost.2⟩
    · rw [zero_add] at hi hold ⊢
      rw [log_toNat hα]
      exact scaleEl_wrote hold hr hi hα
    · simp [Table.multRow]

/-- Row `r₁` of `M₁` has the entries of `b`, and each of them survives the writes
to row `rt` of `Mt` that come before it is read. -/
def RowSource (M₁ : M256v) (r₁ : ℕ) (Mt : M256v) (rt : ℕ) (h : Heap UInt8) (b : Table GF256) :
    Prop :=
  ∀ c < Mt.nCol, ∀ h₁, AgreeOff (Mt.rowCellsBefore rt c) h h₁ →
    h₁.load (M₁.cell r₁ c) = some (b r₁ c).byte

/-- For a multiplier that is not zero, both pointer walks are a loop whose passes add the
multiple of one element each. -/
theorem multaddRowFrom_loop {r₁ rt offs : ℕ} {α : GF256} (hα : α.byte ≠ 0)
    (hcol : M₁.nCol = Mt.nCol) (hr₁ : r₁ < M₁.nRow) (hrt : rt < Mt.nRow) (hoffs : offs ≤ Mt.nCol)
    (h : Heap UInt8) :
    ∃ body : ℕ → Prog (Heap UInt8) Unit,
      (∀ Q, Ends (multaddRowFrom M₁ r₁ offs α.byte Mt rt) h Q ↔
        Ends (forRange 0 (Mt.nCol - offs) body) h Q) ∧
      ∀ i h₁ (v w : GF256), h₁.load (M₁.cell r₁ (offs + i)) = some v.byte →
        h₁.load (Mt.cell rt (offs + i)) = some w.byte →
          Ends (body i) h₁ fun _ => Wrote (Mt.cell rt (offs + i)) (w + α * v).byte h₁ := by
  have hlen : r₁ * M₁.rstride + Mt.nCol - (r₁ * M₁.rstride + offs) = Mt.nCol - offs := by omega
  have haddr₁ : ∀ i, M₁.e.add (r₁ * M₁.rstride + offs + i) = M₁.cell r₁ (offs + i) :=
    fun i => by rw [cell, Nat.add_assoc]
  have haddr : ∀ i, Mt.e.add (rt * Mt.rstride + offs + i) = Mt.cell rt (offs + i) :=
    fun i => by rw [cell, Nat.add_assoc]
  unfold multaddRowFrom
  simp only [ends_bind, ends_ensure, if_neg hα, ends_getElOffs, hcol, hr₁, hrt, hoffs, le_refl,
    true_and, hlen, haddr₁, haddr]
  by_cases hone : α.byte = 1
  · have hα1 : α = 1 := GF256.ext_iff'.mpr hone
    simp only [if_pos hone]
    refine ⟨_, fun _ => Iff.rfl, fun i h₁ v w hsrc hold => ?_⟩
    rw [hα1, one_mul]
    exact addOneEl_wrote hsrc hold
  · simp only [if_neg hone]
    exact ⟨_, fun _ => Iff.rfl, fun i h₁ v w hsrc hold => addEl_wrote hsrc hold hα⟩

/-- Adding a multiple of a row whose entries `b` survive the writes to row `rt`. -/
theorem multaddRowFrom_ends {r₁ rt offs : ℕ} {b : Table GF256} (hA : Mt.Holds h A)
    (hcol : M₁.nCol = Mt.nCol) (hr₁ : r₁ < M₁.nRow) (hrt : rt < Mt.nRow)
    (hoffs : offs ≤ Mt.nCol)
    (hsrc : RowSource M₁ r₁ Mt rt h b) (α : GF256) :
    Ends (multaddRowFrom M₁ r₁ offs α.byte Mt rt) h fun _ h' =>
      Mt.Holds h' (Table.multaddRowFrom b r₁ offs α A rt) ∧ AgreeOff (Mt.rowCells rt) h h' := by
  by_cases hzero : α.byte = 0
  · have hα : α = 0 := GF256.ext_iff'.mpr hzero
    unfold multaddRowFrom
    rw [ends_bind, ends_ensure, if_pos hzero, ends_pure]
    refine ⟨hcol, hA.congr fun i _ j _ => ?_, AgreeOff.refl _ h⟩
    simp [Table.multaddRowFrom, hα]
  · obtain ⟨body, hiff, hbody⟩ := multaddRowFrom_loop hzero hcol hr₁ hrt hoffs h
    rw [hiff]
    refine (rowLoop_ends offs (fun j => A rt j + α * b r₁ j) hA hrt
      fun i h₁ hi hagree hold => hbody i h₁ _ _ (hsrc _ hi h₁ hagree) hold).mono
      fun _ h' hpost => ⟨hpost.1.congr fun i _ j _ => ?_, hpost.2⟩
    by_cases hij : i = rt ∧ offs ≤ j
    · simp [Table.multaddRowFrom, hij]
    · simp [Table.multaddRowFrom, hij]

/-- Copying a row whose entries `b` survive the writes to row `rt`. -/
theorem copyRow_ends {r₁ rt : ℕ} {b : Table GF256} (hA : Mt.Holds h A)
    (hcol : M₁.nCol = Mt.nCol) (hr₁ : r₁ < M₁.nRow) (hrt : rt < Mt.nRow)
    (hsrc : RowSource M₁ r₁ Mt rt h b) :
    Ends (copyRow M₁ r₁ Mt rt) h fun _ h' =>
      Mt.Holds h' (Table.copyRow b r₁ A rt) ∧ AgreeOff (Mt.rowCells rt) h h' := by
  unfold copyRow
  refine ends_bind.mpr (ends_ensure.mpr ⟨hcol, ?_⟩)
  refine (rowLoop_ends 0 (b r₁) hA hrt fun i h₁ hi hagree hold => ?_).mono
    fun _ h' hpost => ⟨hpost.1.congr fun i _ j _ => ?_, hpost.2⟩
  · rw [zero_add] at hi hagree hold ⊢
    have hsome : (h₁.load (Mt.cell rt i)).isSome := by rw [hold]; rfl
    simp only [ends_bind, ends_getEl, ends_setEl, hcol]
    exact ⟨hr₁, hi.le, _, hsrc i hi h₁ hagree, hrt, hi.le, hsome, wrote_store hsome _⟩
  · simp [Table.copyRow]

/-- A row of the same view survives, also when it is row `rt` itself. -/
theorem Holds.source_self {r₁ rt : ℕ} (hA : M.Holds h A) (hr₁ : r₁ < M.nRow) :
    RowSource M r₁ M rt h A := by
  intro c hc h₁ hagree
  rw [hagree _ (cell_notMem_rowCellsBefore hc), hA.load hr₁ hc]

/-- A row of a view without a common cell survives. -/
theorem HoldsRow.source_of_disjoint {r₁ rt : ℕ} (hB : M₁.HoldsRow h B r₁)
    (hcol : M₁.nCol = Mt.nCol) (hr₁ : r₁ < M₁.nRow) (hrt : rt < Mt.nRow)
    (hdisj : Disjoint Mt.cells M₁.cells) : RowSource M₁ r₁ Mt rt h B := by
  intro c hc h₁ hagree
  have hsub := (rowCellsBefore_subset (M := Mt) (r := rt) c).trans (rowCells_subset hrt)
  exact hB.agreeOff hr₁ (hagree.mono hsub) hdisj c (hcol ▸ hc)

theorem Holds.source_of_disjoint {r₁ rt : ℕ} (hB : M₁.Holds h B) (hcol : M₁.nCol = Mt.nCol)
    (hr₁ : r₁ < M₁.nRow) (hrt : rt < Mt.nRow) (hdisj : Disjoint Mt.cells M₁.cells) :
    RowSource M₁ r₁ Mt rt h B :=
  (hB.row hr₁).source_of_disjoint hcol hr₁ hrt hdisj

/-! ## Column operations -/

theorem swapCols_ends {c₁ c₂ : ℕ} (hA : M.Holds h A) (hrow : 0 < M.nRow) (hc₁ : c₁ < M.nCol)
    (hc₂ : c₂ < M.nCol) :
    Ends (M.swapCols c₁ c₂) h fun _ h' =>
      M.Holds h' (A.swapCols c₁ c₂) ∧ AgreeOff M.cells h h' := by
  unfold swapCols
  split_ifs with heq
  · subst heq
    simpa using ⟨hA, AgreeOff.refl _ h⟩
  simp only [ends_bind, ends_getElOffs, zero_mul, zero_add]
  refine ⟨hrow, hc₁.le, hrow, hc₂.le, ?_⟩
  have haddr : ∀ c i, M.e.add (c + i * M.rstride) = M.cell i c := fun c i => by
    rw [cell, Nat.add_comm]
  simp only [haddr]
  refine swapColsLoop_ends (R := fun h' T => M.Holds h' T ∧ AgreeOff M.cells h h')
    (fun hT heq => ⟨hT.1.congr heq, hT.2⟩) ⟨hA, AgreeOff.refl _ h⟩ fun k h₁ T hk hT => ?_
  apply (exchange_ends hT.1 hk hc₁ hk hc₂ fun hboth => heq hboth.2).mono
  rintro _ h₂ ⟨hT', hagree⟩
  exact ⟨hT', hT.2.trans hagree⟩

theorem multColFrom_ends {offs : ℕ} (hA : M.Holds h A) (hc : c < M.nCol)
    (hoffs : offs ≤ M.nRow) (α : GF256) :
    Ends (M.multColFrom c offs α.byte) h fun _ h' =>
      M.Holds h' (A.multColFrom c offs α) ∧ AgreeOff M.cells h h' := by
  unfold multColFrom
  split_ifs with hα
  · refine colLoop_ends (fun i => α * A i c) hA hoffs fun i h₁ T _ hi hT hrow _ => ?_
    rw [← congrFun hrow c]
    apply (scaleEl_wrote (hT.load hi hc) hi hc hα).mono
    intro _ h₂ hw
    exact ⟨hT.wrote hi hc hw, hw.agreeOff.mono (Set.singleton_subset_iff.mpr
      (cell_mem_rowCells hc))⟩
  · obtain rfl : α = 0 := GF256.ext_iff'.mpr (not_not.mp hα)
    refine colLoop_ends (fun i => 0 * A i c) hA hoffs fun i h₁ T _ hi hT _ _ => ?_
    rw [zero_mul]
    exact setEl_ends hT hi hc 0

/-- Copying a column whose entries `b` are there when their row comes. -/
theorem copyCol_ends {c₁ ct : ℕ} {b : Table GF256} (hA : Mt.Holds h A)
    (hrow : M₁.nRow = Mt.nRow) (hc₁ : c₁ < M₁.nCol) (hct : ct < Mt.nCol)
    (hsrc : ∀ i h₁ T, i < Mt.nRow → Mt.Holds h₁ T → T i = A i → AgreeOff Mt.cells h h₁ →
      h₁.load (M₁.cell i c₁) = some (b i c₁).byte) :
    Ends (copyCol M₁ c₁ Mt ct) h fun _ h' =>
      Mt.Holds h' (Table.copyCol b c₁ A ct) ∧ AgreeOff Mt.cells h h' := by
  unfold copyCol
  refine ends_bind.mpr (ends_ensure.mpr ⟨hrow, ?_⟩)
  refine (colLoop_ends (c := ct) (fun i => b i c₁) hA (Nat.zero_le _)
    fun i h₁ T _ hi hT hold hagree => ?_).mono
    fun _ h' hpost => ⟨hpost.1.congr fun i _ j _ => ?_, hpost.2⟩
  · refine ends_bind.mpr (ends_getEl.mpr ⟨hrow ▸ hi, hc₁.le, _, hsrc i h₁ T hi hT hold hagree, ?_⟩)
    exact setEl_ends hT hi hct _
  · simp [Table.copyCol]

/-! ## Subviews -/

/-- `V` is the `n × m` region of `M` at row `ro` and column `co`. -/
structure IsSubview (V M : M256v) (ro co n m : ℕ) : Prop where
  nRow_eq : V.nRow = n
  nCol_eq : V.nCol = m
  row_le : ro + n ≤ M.nRow
  col_le : co + m ≤ M.nCol
  cell_eq : ∀ r c, V.cell r c = M.cell (ro + r) (co + c)

theorem getSubview_ends {ro co n m : ℕ} (hlt : ro < M.nRow) (hrow : ro + n ≤ M.nRow)
    (hcol : co + m ≤ M.nCol) :
    Ends (M.getSubview ro co n m) h fun V h' => IsSubview V M ro co n m ∧ h' = h := by
  unfold getSubview
  rw [ends_bind, ends_ensure, dif_pos hcol, ends_bind, ends_getElOffs, ends_pure]
  refine ⟨hrow, hlt, by omega, ?_, rfl⟩
  refine { nRow_eq := rfl, nCol_eq := rfl, row_le := hrow, col_le := hcol, cell_eq := ?_ }
  intro r c
  have hoff : ro * M.rstride + co + (r * M.rstride + c) = (ro + r) * M.rstride + (co + c) := by
    rw [Nat.add_mul]
    omega
  rw [cell, cell, Ptr.add_add, hoff]

namespace IsSubview

variable {V : M256v} {ro co n m : ℕ}

theorem cells_subset (hV : IsSubview V M ro co n m) : V.cells ⊆ M.cells := by
  rintro p ⟨r, hr, c, hc, rfl⟩
  rw [hV.nRow_eq] at hr
  rw [hV.nCol_eq] at hc
  have := hV.row_le
  have := hV.col_le
  rw [hV.cell_eq]
  exact cell_mem_cells (by omega) (by omega)

/-- A subview holds a block of the table. -/
theorem holds (hV : IsSubview V M ro co n m) (hA : M.Holds h A) : V.Holds h (A.block ro co) := by
  intro r hr c hc
  rw [hV.nRow_eq] at hr
  rw [hV.nCol_eq] at hc
  have := hV.row_le
  have := hV.col_le
  rw [hV.cell_eq, hA.load (by omega) (by omega)]
  rfl

/-- Writing through a subview replaces a block of the table. -/
theorem holds_patch (hV : IsSubview V M ro co n m) (hA : M.Holds h A) (hB : V.Holds h' B)
    (hagree : AgreeOff V.cells h h') : M.Holds h' (A.patch ro co n m B) := by
  intro r hr c hc
  by_cases hin : ro ≤ r ∧ r < ro + n ∧ co ≤ c ∧ c < co + m
  · have hcell : M.cell r c = V.cell (r - ro) (c - co) := by
      rw [hV.cell_eq]
      congr 1 <;> omega
    have hrow : r - ro < V.nRow := by rw [hV.nRow_eq]; omega
    have hcol : c - co < V.nCol := by rw [hV.nCol_eq]; omega
    rw [hcell, hB.load hrow hcol, Table.patch, if_pos hin]
  · have hout : M.cell r c ∉ V.cells := by
      rintro ⟨i, hi, j, hj, heq⟩
      rw [hV.nRow_eq] at hi
      rw [hV.nCol_eq] at hj
      have := hV.col_le
      rw [hV.cell_eq] at heq
      have := (cell_inj hc (by omega)).mp heq
      exact hin (by omega)
    rw [hagree _ hout, hA.load hr hc, Table.patch, if_neg hin]

/-- Regions without a common row or without a common column have no common cell. -/
theorem disjoint {V' : M256v} {ro' co' n' m' : ℕ} (hV : IsSubview V M ro co n m)
    (hV' : IsSubview V' M ro' co' n' m')
    (hapart : ro + n ≤ ro' ∨ ro' + n' ≤ ro ∨ co + m ≤ co' ∨ co' + m' ≤ co) :
    Disjoint V.cells V'.cells := by
  rw [Set.disjoint_left]
  rintro p ⟨r, hr, c, hc, rfl⟩ ⟨r', hr', c', hc', heq⟩
  rw [hV.nRow_eq] at hr
  rw [hV.nCol_eq] at hc
  rw [hV'.nRow_eq] at hr'
  rw [hV'.nCol_eq] at hc'
  rw [hV.cell_eq, hV'.cell_eq] at heq
  have := hV.col_le
  have := hV'.col_le
  obtain ⟨hrow, hcol⟩ := (cell_inj (by omega) (by omega)).mp heq
  omega

/-- The first rows hold the same table. -/
theorem holds_top (hV : IsSubview V M 0 0 n m) (hA : M.Holds h A) : V.Holds h A := by
  have hblock : A.block 0 0 = A := by
    funext i j
    simp [Table.block]
  have hholds := hV.holds hA
  rwa [hblock] at hholds

/-- Writing the first rows gives the new table if it agrees with the old one below. -/
theorem holds_of_top (hV : IsSubview V M 0 0 n M.nCol) (hA : M.Holds h A) (hB : V.Holds h' B)
    (hagree : AgreeOff V.cells h h') (hbelow : ∀ r, n ≤ r → B r = A r) : M.Holds h' B := by
  refine (hV.holds_patch hA hB hagree).congr fun r hr c hc => ?_
  by_cases hlt : r < n
  · rw [Table.patch, if_pos ⟨Nat.zero_le r, by omega, Nat.zero_le c, by omega⟩]
    rfl
  · rw [Table.patch, if_neg (by omega), hbelow r (not_lt.mp hlt)]

end IsSubview

end M256v

end TvRQ
