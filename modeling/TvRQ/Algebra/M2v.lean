/-
# Matrix views over GF(2)

The view type of `m2v.h` and its operations from `m2v.c`, on a heap of 32-bit
words.  A row takes a whole number of words, and the bits behind its last
column are not used.  All views have as row stride the number of words that
their columns take, since a subview keeps all columns.

The source computes this number and the indices of words in `int`.  A row size
overflows from 2^31 - 32 columns on, and an index from 2^31 words on.  Both are
faults here; the views of `m256v.h` have indices of type `size_t`.
-/

import Mathlib.Data.Int.Bitwise
import TvRQ.Algebra.MvGeneric
import TvRQ.Lib.MachineInt

namespace TvRQ

open Imperative

/-- `m2v__Bits_per_base`. -/
def bitsPerBase : ℕ := 32

/-- The number of words that a row takes. -/
def rowWords (nCol : ℕ) : ℕ := (nCol + bitsPerBase - 1) / bitsPerBase

/-- The same number as it is computed, from left to right. -/
def getRowSize (nCol : ℕ) : Except Fault ℕ := do
  let bits ← intOfSize (nCol + bitsPerBase)
  .ok ((bits - 1) / bitsPerBase)

theorem getRowSize_eq_ok {nCol size : ℕ} :
    getRowSize nCol = .ok size ↔ nCol + bitsPerBase < 2 ^ 31 ∧ size = rowWords nCol := by
  rw [getRowSize, intOfSize]
  split_ifs with h
  · show Except.ok (rowWords nCol) = .ok size ↔ _
    rw [Except.ok.injEq, eq_comm]
    exact (and_iff_right h).symm
  · exact iff_of_false (fun heq => by cases heq) fun heq => h heq.1

/-- A matrix view over GF(2). -/
structure M2v where
  nRow : ℕ
  nCol : ℕ
  rowStride : ℕ
  e : Ptr
  stride_eq : rowStride = rowWords nCol
  deriving DecidableEq, Repr

/-- The bit of column `c` inside its word. -/
def getBit (c : ℕ) : ℕ := c % bitsPerBase

/-- The word that has bit `b` alone. -/
def getMask (b : ℕ) : UInt32 := ⟨1#32 <<< b⟩

/-- Set or clear the bits of the mask. -/
def assignMask (w m : UInt32) (val : Bool) : UInt32 :=
  if val then w ||| m else w &&& ~~~m

namespace M2v

/-- The view of memory that is large enough. -/
def view (nRow nCol : ℕ) (memory : Ptr) : M2v := ⟨nRow, nCol, rowWords nCol, memory, rfl⟩

def make (nRow nCol : ℕ) (memory : Ptr) : Except Fault M2v :=
  match h : getRowSize nCol with
  | .ok rowStride => .ok ⟨nRow, nCol, rowStride, memory, (getRowSize_eq_ok.mp h).2⟩
  | .error fault => .error fault

/-- The index of the word of an element; neither number is checked. -/
def getWord (M : M2v) (r c : ℕ) : Except Fault ℕ :=
  intOfSize (M.rowStride * r + c / bitsPerBase)

/-- Word `o + i` of the storage. -/
def word {σ : Type} (M : M2v) (o i : ℕ) : Prog σ Ptr := do
  let w ← embed (intOfSize (o + i))
  pure (M.e.add w)

/-- A view of some rows; there are no views of some columns. -/
def getSubview (M : M2v) (rowOffs colOffs nRow nCol : ℕ) : Prog (Heap UInt32) M2v := do
  ensure (0 = colOffs)
  ensure (M.nCol = nCol)
  ensure (rowOffs + nRow ≤ M.nRow)
  let offs ← embed (intOfSize (rowOffs * M.rowStride))
  pure ⟨nRow, M.nCol, M.rowStride, M.e.add offs, M.stride_eq⟩

def getEl (M : M2v) (r c : ℕ) : Prog (Heap UInt32) ℤ := do
  ensure (r < M.nRow)
  ensure (c < M.nCol)
  let o ← embed (M.getWord r c)
  let w ← load (M.e.add o)
  pure (if w &&& getMask (getBit c) != 0 then 1 else 0)

def setEl (M : M2v) (r c : ℕ) (val : ℤ) : Prog (Heap UInt32) Unit := do
  ensure (r < M.nRow)
  ensure (c < M.nCol)
  let o ← embed (M.getWord r c)
  let w ← load (M.e.add o)
  store (M.e.add o) (assignMask w (getMask (getBit c)) (val != 0))

def swapRows (M : M2v) (r₁ r₂ : ℕ) : Prog (Heap UInt32) Unit := do
  ensure (r₁ < M.nRow)
  ensure (r₂ < M.nRow)
  let o₁ ← embed (M.getWord r₁ 0)
  let o₂ ← embed (M.getWord r₂ 0)
  forRange 0 M.rowStride fun i => do
    let p₁ ← M.word o₁ i
    let p₂ ← M.word o₂ i
    let sw ← load p₁
    let v ← load p₂
    store p₁ v
    store p₂ sw

def clearRow (M : M2v) (r : ℕ) : Prog (Heap UInt32) Unit := do
  ensure (r < M.nRow)
  let o₁ ← embed (M.getWord r 0)
  forRange 0 M.rowStride fun i => do
    let p ← M.word o₁ i
    store p 0

def multRow (M : M2v) (r : ℕ) (alpha : ℤ) : Prog (Heap UInt32) Unit :=
  if alpha = 0 then
    M.clearRow r
  else
    pure ()

/-- Add word `o₁ + i` of one view to word `ot + i` of another. -/
def addWord (M₁ : M2v) (o₁ : ℕ) (Mt : M2v) (ot i : ℕ) : Prog (Heap UInt32) Unit := do
  let p₁ ← M₁.word o₁ i
  let pt ← Mt.word ot i
  let v ← load p₁
  let w ← load pt
  store pt (w ^^^ v)

def multaddRow (M₁ : M2v) (r₁ : ℕ) (alpha : ℤ) (Mt : M2v) (rt : ℕ) :
    Prog (Heap UInt32) Unit := do
  ensure (M₁.nCol = Mt.nCol)
  ensure (r₁ < M₁.nRow)
  ensure (rt < Mt.nRow)
  if alpha = 0 then
    pure ()
  else do
    let o₁ ← embed (M₁.getWord r₁ 0)
    let ot ← embed (Mt.getWord rt 0)
    forRange 0 Mt.rowStride fun i => addWord M₁ o₁ Mt ot i

/-- Add row `r₁` of `M₁` to row `rt` of `Mt` from column `offs` on: the first
word in part, then the words up to the next row.  Nothing checks that the first
word belongs to the row. -/
def multaddRowFrom (M₁ : M2v) (r₁ offs : ℕ) (alpha : ℤ) (Mt : M2v) (rt : ℕ) :
    Prog (Heap UInt32) Unit := do
  ensure (M₁.nCol = Mt.nCol)
  ensure (r₁ < M₁.nRow)
  ensure (rt < Mt.nRow)
  if alpha = 0 then
    pure ()
  else do
    let o₁ ← embed (M₁.getWord r₁ offs)
    let ot ← embed (Mt.getWord rt offs)
    let m := ~~~(getMask (getBit offs) - 1)
    let v ← load (M₁.e.add o₁)
    let w ← load (Mt.e.add ot)
    store (Mt.e.add ot) (w ^^^ (v &&& m))
    let o₁ ← embed (intOfSize (o₁ + 1))
    let ot ← embed (intOfSize (ot + 1))
    let oe ← embed (Mt.getWord (rt + 1) 0)
    forRange 0 (oe - ot) fun i => do
      addWord M₁ o₁ Mt ot i
      let _ ← embed (intOfSize (o₁ + i + 1))
      let _ ← embed (intOfSize (ot + i + 1))

def copyRow (M₁ : M2v) (r₁ : ℕ) (Mt : M2v) (rt : ℕ) : Prog (Heap UInt32) Unit := do
  ensure (M₁.nCol = Mt.nCol)
  ensure (r₁ < M₁.nRow)
  ensure (rt < Mt.nRow)
  let o₁ ← embed (M₁.getWord r₁ 0)
  let ot ← embed (Mt.getWord rt 0)
  forRange 0 Mt.rowStride fun i => do
    let p₁ ← M₁.word o₁ i
    let pt ← Mt.word ot i
    let v ← load p₁
    store pt v

/-- Whether row `r` has zeros only: all words but the last are compared as they
are, the last one in the columns that exist. -/
def rowIszero (M : M2v) (r : ℕ) : Prog (Heap UInt32) Bool := do
  ensure (r < M.nRow)
  let o ← embed (M.getWord r 0)
  let oe ← embed (M.getWord r (M.nCol - 1))
  let hit ← findRange 0 (oe - o) fun i => do
    let w ← load (M.e.add (o + i))
    pure (if w ≠ 0 then some () else none)
  match hit with
  | some () => pure false
  | none => do
      let m := (getMask (getBit (M.nCol - 1)) <<< 1) - 1
      let w ← load (M.e.add oe)
      pure (w &&& m == 0)

def swapCols (M : M2v) (c₁ c₂ : ℕ) : Prog (Heap UInt32) Unit := do
  ensure (c₁ < M.nCol)
  ensure (c₂ < M.nCol)
  let o₁ ← embed (M.getWord 0 c₁)
  let o₂ ← embed (M.getWord 0 c₂)
  let m₁ := getMask (getBit c₁)
  let m₂ := getMask (getBit c₂)
  if o₁ ≠ o₂ then
    forRange 0 M.nRow fun i => do
      let p₁ ← M.word (i * M.rowStride) o₁
      let p₂ ← M.word (i * M.rowStride) o₂
      let w₁ ← load p₁
      let w₂ ← load p₂
      let bit₁ := w₁ &&& m₁ != 0
      let bit₂ := w₂ &&& m₂ != 0
      store p₁ (assignMask w₁ m₁ bit₂)
      store p₂ (assignMask w₂ m₂ bit₁)
  else
    forRange 0 M.nRow fun i => do
      let p ← M.word (i * M.rowStride) o₁
      let w ← load p
      let bit₁ := w &&& m₁ != 0
      let bit₂ := w &&& m₂ != 0
      store p (assignMask (assignMask w m₁ bit₂) m₂ bit₁)

def multColFrom (M : M2v) (c offs : ℕ) (alpha : ℤ) : Prog (Heap UInt32) Unit := do
  ensure (c < M.nCol)
  ensure (offs ≤ M.nRow)
  if alpha ≠ 0 then
    pure ()
  else do
    let m := ~~~getMask (getBit c)
    forRange offs M.nRow fun r => do
      let o ← embed (M.getWord r c)
      let w ← load (M.e.add o)
      store (M.e.add o) (w &&& m)

def copyCol (M₁ : M2v) (c₁ : ℕ) (Mt : M2v) (ct : ℕ) : Prog (Heap UInt32) Unit := do
  ensure (M₁.nRow = Mt.nRow)
  ensure (c₁ < M₁.nCol)
  ensure (ct < Mt.nCol)
  let m₁ := getMask (getBit c₁)
  let mt := getMask (getBit ct)
  forRange 0 M₁.nRow fun i => do
    let o₁ ← embed (M₁.getWord i c₁)
    let w₁ ← load (M₁.e.add o₁)
    let ot ← embed (Mt.getWord i ct)
    let w ← load (Mt.e.add ot)
    store (Mt.e.add ot) (assignMask w mt (w₁ &&& m₁ != 0))

/-- The number of words that `m2v_Def` reserves for a matrix. -/
def storageSize (nRow nCol : ℕ) : Except Fault ℕ := do
  let rowSize ← getRowSize nCol
  intOfSize (nRow * rowSize)

/-- `m2v_Def`: a view with storage on the stack, whose contents are not initialised. -/
def localView (nRow nCol : ℕ) : Prog (Heap UInt32) M2v := do
  let size ← embed (storageSize nRow nCol)
  let memory ← alloc size 0
  embed (make nRow nCol memory)

/-- The operations that the generic algorithms use under the prefix `m2v`; the
inverse of every element is 1. -/
instance : MvGen M2v (Heap UInt32) ℤ where
  nRow := M2v.nRow
  nCol := M2v.nCol
  localView := localView
  endLocal := release
  getSubview := getSubview
  getEl := getEl
  setEl := setEl
  swapRows := swapRows
  clearRow := clearRow
  multRow := multRow
  multaddRow := multaddRow
  multaddRowFrom := multaddRowFrom
  copyRow := copyRow
  swapCols := swapCols
  multColFrom := multColFrom
  finv := fun _ => .ok 1

/-- The field macros of `m2v.c`, on numbers that are 0 or 1. -/
instance : MvGenAll M2v (Heap UInt32) ℤ where
  rowIszero := rowIszero
  copyCol := copyCol
  fadd := Int.xor
  fmul := fun a b => .ok (a * b)

end M2v

end TvRQ
