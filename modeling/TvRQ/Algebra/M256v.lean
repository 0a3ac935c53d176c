/-
# Matrix views over GF(256)

The view type of `m256v.h` and its operations from `m256v.c`, on a heap of
bytes.  A view does not own its storage: it is a base pointer, a shape and a
row stride, and views of one storage may overlap.  The field `wide` records
what every way of making a view guarantees, that its rows do not run into each
other.  The storage accesses are those of the source, pointer walks included.
-/

import Mathlib.Data.UInt
import TvRQ.Algebra.Gf256
import TvRQ.Algebra.MvGeneric

namespace TvRQ

open Imperative

/-- A matrix view over GF(256). -/
structure M256v where
  nRow : ℕ
  nCol : ℕ
  rstride : ℕ
  e : Ptr
  wide : nCol ≤ rstride
  deriving DecidableEq, Repr

namespace M256v

/-- A basic row-major view of `memory`. -/
def make (nRow nCol : ℕ) (memory : Ptr) : M256v := ⟨nRow, nCol, nCol, memory, le_rfl⟩

/-- The address offset of an element; the column may be one past the last. -/
def getElOffs (M : M256v) (r c : ℕ) : Prog (Heap UInt8) ℕ := do
  ensure (r < M.nRow)
  ensure (c ≤ M.nCol)
  pure (r * M.rstride + c)

/-- A view for a region of `M`. -/
def getSubview (M : M256v) (rowOffs colOffs nRow nCol : ℕ) : Prog (Heap UInt8) M256v := do
  ensure (rowOffs + nRow ≤ M.nRow)
  if h : colOffs + nCol ≤ M.nCol then do
    let o ← M.getElOffs rowOffs colOffs
    pure ⟨nRow, nCol, M.rstride, M.e.add o,
      (Nat.le_add_left nCol colOffs).trans (h.trans M.wide)⟩
  else
    throw .assertion

def getEl (M : M256v) (r c : ℕ) : Prog (Heap UInt8) UInt8 := do
  let o ← M.getElOffs r c
  load (M.e.add o)

def setEl (M : M256v) (r c : ℕ) (val : UInt8) : Prog (Heap UInt8) Unit := do
  let o ← M.getElOffs r c
  store (M.e.add o) val

def swapRows (M : M256v) (r₁ r₂ : ℕ) : Prog (Heap UInt8) Unit :=
  if r₁ = r₂ then
    pure ()
  else do
    let o₁ ← M.getElOffs r₁ 0
    let o₂ ← M.getElOffs r₂ 0
    forRange 0 M.nCol fun i => do
      let sw ← load (M.e.add (o₁ + i))
      let v ← load (M.e.add (o₂ + i))
      store (M.e.add (o₁ + i)) v
      store (M.e.add (o₂ + i)) sw

def clearRow (M : M256v) (r : ℕ) : Prog (Heap UInt8) Unit :=
  forRange 0 M.nCol fun i => M.setEl r i 0

/-- Multiply row `r` by `alpha`.  The logarithm is kept in a byte here. -/
def multRow (M : M256v) (r : ℕ) (alpha : UInt8) : Prog (Heap UInt8) Unit :=
  if alpha = 0 then
    M.clearRow r
  else do
    let logAlpha : UInt8 := UInt8.ofInt (gf256Log alpha)
    forRange 0 M.nCol fun j => do
      let v ← M.getEl r j
      if v ≠ 0 then do
        let w ← embed (gf256Exp (gf256Log v + logAlpha.toNat))
        M.setEl r j w
      else
        pure ()

/-- Add `alpha` times row `r₁` of `M₁` to row `rt` of `Mt`, from column `offs`
on.  The source walks two pointers until the first one is past its row. -/
def multaddRowFrom (M₁ : M256v) (r₁ offs : ℕ) (alpha : UInt8) (Mt : M256v) (rt : ℕ) :
    Prog (Heap UInt8) Unit := do
  ensure (M₁.nCol = Mt.nCol)
  if alpha = 0 then
    pure ()
  else do
    let s ← M₁.getElOffs r₁ offs
    let t ← Mt.getElOffs rt offs
    let last ← M₁.getElOffs r₁ M₁.nCol
    if alpha = 1 then
      forRange 0 (last - s) fun i => do
        let v ← load (M₁.e.add (s + i))
        let w ← load (Mt.e.add (t + i))
        store (Mt.e.add (t + i)) (w ^^^ v)
    else
      forRange 0 (last - s) fun i => do
        let ve ← load (M₁.e.add (s + i))
        if ve ≠ 0 then do
          let p ← embed (gf256Exp (gf256Log alpha + gf256Log ve))
          let w ← load (Mt.e.add (t + i))
          store (Mt.e.add (t + i)) (w ^^^ p)
        else
          pure ()

def multaddRow (M₁ : M256v) (r₁ : ℕ) (alpha : UInt8) (Mt : M256v) (rt : ℕ) :
    Prog (Heap UInt8) Unit :=
  multaddRowFrom M₁ r₁ 0 alpha Mt rt

def copyRow (M₁ : M256v) (r₁ : ℕ) (Mt : M256v) (rt : ℕ) : Prog (Heap UInt8) Unit := do
  ensure (M₁.nCol = Mt.nCol)
  forRange 0 Mt.nCol fun i => do
    let v ← M₁.getEl r₁ i
    Mt.setEl rt i v

/-- Whether row `r` has zeros only; the first other entry ends the loop. -/
def rowIszero (M : M256v) (r : ℕ) : Prog (Heap UInt8) Bool := do
  let hit ← findRange 0 M.nCol fun c => do
    let v ← M.getEl r c
    pure (if v ≠ 0 then some () else none)
  pure hit.isNone

def swapCols (M : M256v) (c₁ c₂ : ℕ) : Prog (Heap UInt8) Unit :=
  if c₁ = c₂ then
    pure ()
  else do
    let o₁ ← M.getElOffs 0 c₁
    let o₂ ← M.getElOffs 0 c₂
    forRange 0 M.nRow fun i => do
      let sw ← load (M.e.add (o₁ + i * M.rstride))
      let v ← load (M.e.add (o₂ + i * M.rstride))
      store (M.e.add (o₁ + i * M.rstride)) v
      store (M.e.add (o₂ + i * M.rstride)) sw

def multColFrom (M : M256v) (c offs : ℕ) (alpha : UInt8) : Prog (Heap UInt8) Unit :=
  if alpha ≠ 0 then
    forRange offs M.nRow fun j => do
      let val ← M.getEl j c
      if val ≠ 0 then do
        let w ← embed (gf256Exp (gf256Log val + gf256Log alpha))
        M.setEl j c w
      else
        pure ()
  else
    forRange offs M.nRow fun j => M.setEl j c 0

def copyCol (M₁ : M256v) (c₁ : ℕ) (Mt : M256v) (ct : ℕ) : Prog (Heap UInt8) Unit := do
  ensure (M₁.nRow = Mt.nRow)
  forRange 0 Mt.nRow fun i => do
    let v ← M₁.getEl i c₁
    Mt.setEl i ct v

/-- A view with storage on the stack, whose contents are not initialised. -/
def localView (nRow nCol : ℕ) : Prog (Heap UInt8) M256v := do
  let memory ← alloc (nRow * nCol) 0
  pure (make nRow nCol memory)

/-- The operations that the generic algorithms use under the prefix `m256v`. -/
instance : MvGen M256v (Heap UInt8) UInt8 where
  nRow := M256v.nRow
  nCol := M256v.nCol
  localView := localView
  endLocal := release
  getSubview := getSubview
  getEl := getEl
  setEl := setEl
  swapRows := swapRows
  clearRow := clearRow
  multRow := multRow
  multaddRow := multaddRow
  multaddRowFrom := multaddRowFrom
  copyRow := copyRow
  swapCols := swapCols
  multColFrom := multColFrom
  finv := gf256Inv

instance : MvGenAll M256v (Heap UInt8) UInt8 where
  rowIszero := rowIszero
  copyCol := copyCol
  fadd := gf256Add
  fmul := gf256Mul

end M256v

end TvRQ
