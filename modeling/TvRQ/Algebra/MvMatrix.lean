/-
# Matrix functions for all views

The functions of `mv_generic.h` besides the decomposition: comparing, copying,
permuting and adding matrices, and the products with a matrix and its inverse
through the factors.
-/

import TvRQ.Algebra.MvGeneric
import TvRQ.Lib.Cycles

namespace TvRQ

open Imperative MvGen MvGenAll

namespace MvMatrix

variable {V σ E : Type} [MvGenAll V σ E]

/-! ## Whole matrices -/

/-- Whether all rows are zero; the first other row ends the loop. -/
def iszero (M : V) : Prog σ Bool := do
  let hit ← findRange 0 (nRow M) fun r => do
    let zero ← rowIszero M r
    pure (if zero then none else some ())
  pure hit.isNone

def copy (A B : V) : Prog σ Unit := do
  ensure (nRow A = nRow B)
  ensure (nCol A = nCol B)
  forRange 0 (nRow A) fun i => copyRow A i B i

/-- Copy a part of a matrix to a place in a matrix, entry by entry. -/
def copySubmat (A : V) (ARowOffs AColOffs n m : ℕ) (At : V) (AtRowOffs AtColOffs : ℕ) :
    Prog σ Unit := do
  ensure (ARowOffs + n ≤ nRow A)
  ensure (AColOffs + m ≤ nCol A)
  ensure (AtRowOffs + n ≤ nRow At)
  ensure (AtColOffs + m ≤ nCol At)
  forRange 0 n fun r =>
    forRange 0 m fun c => do
      let v ← getEl A (r + ARowOffs) (c + AColOffs)
      setEl At (r + AtRowOffs) (c + AtColOffs) v

/-- Move column `colperm[i]` to column `i`, for every `i`, in place. -/
def permuteCols (M : V) (colperm : Array ℕ) : Prog σ Unit := do
  let colbuf ← localView (nRow M) 1
  let _ ← permuteLines (nCol M) (fun i => copyCol M i colbuf 0) (fun e => copyCol colbuf 0 M e)
    (fun eNext e => copyCol M eNext M e) colperm
  endLocal V

/-- Permuting rows is the same routine with rows for columns. -/
theorem permuteRows_eq (M : V) (rowperm : Array ℕ) :
    permuteRows M rowperm = (do
      let rowbuf ← localView 1 (nCol M)
      let _ ← permuteLines (nRow M) (fun i => copyRow M i rowbuf 0)
        (fun e => copyRow rowbuf 0 M e) (fun eNext e => copyRow M eNext M e) rowperm
      endLocal V) := rfl

section Arithmetic

variable [Zero E] [One E]

def add (A B out : V) : Prog σ Unit := do
  ensure (nRow A = nRow B)
  ensure (nCol A = nCol B)
  ensure (nRow A = nRow out)
  ensure (nCol A = nCol out)
  forRange 0 (nRow A) fun i => do
    copyRow A i out i
    multaddRow B i 1 out i

def addInplace (A BInout : V) : Prog σ Unit := do
  ensure (nRow A = nRow BInout)
  ensure (nCol A = nCol BInout)
  forRange 0 (nRow BInout) fun r => multaddRow A r 1 BInout r

/-- One entry of the product of two matrices. -/
def mulEntry (A B : V) (i j : ℕ) : Prog σ E :=
  foldRange 0 (nCol A) 0 fun e x => do
    let a ← getEl A i e
    let b ← getEl B e j
    let p ← embed (fmul V a b)
    pure (fadd V x p)

def mul (A B ABOut : V) : Prog σ Unit := do
  ensure (nCol A = nRow B)
  ensure (nRow A = nRow ABOut)
  ensure (nCol B = nCol ABOut)
  forRange 0 (nRow ABOut) fun i =>
    forRange 0 (nCol ABOut) fun j => do
      let x ← mulEntry A B i j
      setEl ABOut i j x

end Arithmetic

/-! ## Determinant -/

/-- The product of the diagonal of a decomposed square matrix. -/
def luDet [One E] (LU : V) : Prog σ E := do
  ensure (nRow LU = nCol LU)
  foldRange 0 (nCol LU) 1 fun i det => do
    let d ← getEl LU i i
    embed (fmul V det d)

/-! ## Products through the factors -/

/-- Compute `Y = P L U Q X`. -/
def luMult (LU : V) (rp cp : Array ℕ) (X YOut : V) : Prog σ Unit := do
  ensure (nCol LU = nRow X)
  ensure (nRow LU = nRow YOut)
  ensure (nCol X = nCol YOut)
  forRange 0 (nRow YOut) fun i => clearRow YOut i
  -- Multiply with U.
  forRange 0 (nRow LU) fun i => do
    let t ← readArray rp i
    forDown i (nCol LU) fun j => do
      let cj ← readArray cp j
      let a ← getEl LU i j
      multaddRow X cj a YOut t
  -- Multiply with L, whose rows below the triangle have all columns.
  forDown 0 (nRow LU) fun i =>
    forDown 0 (if nCol LU ≤ i then nCol LU else i) fun j => do
      let rj ← readArray rp j
      let a ← getEl LU i j
      let ri ← readArray rp i
      multaddRow YOut rj a YOut ri

/-- Find some `X` with `P L U Q X = Y` if there is one. -/
def luInvmult (LU : V) (rank : ℤ) (rowperm colperm : Array ℕ) (Y XOut : V) : Prog σ Unit := do
  ensure (nCol LU = nRow XOut)
  ensure (nRow LU = nRow Y)
  ensure (nCol XOut = nCol Y)
  forRange (solveRank LU rank) (nRow XOut) fun i => do
    let ci ← readArray colperm i
    clearRow XOut ci
  -- Multiply with the inverse of L.
  forRange 0 (solveRank LU rank) fun i => do
    let ri ← readArray rowperm i
    let ci ← readArray colperm i
    copyRow Y ri XOut ci
    forRange 0 i fun j => do
      let cj ← readArray colperm j
      let a ← getEl LU i j
      multaddRow XOut cj a XOut ci
  -- Multiply with the inverse of U.
  forDown 0 (solveRank LU rank) fun i => do
    let ci ← readArray colperm i
    forRange (i + 1) (nCol LU) fun j => do
      let cj ← readArray colperm j
      let a ← getEl LU i j
      multaddRow XOut cj a XOut ci
    let d ← getEl LU i i
    let dInv ← embed (finv V d)
    multRow XOut ci dInv

/-- Multiply with L in place; the rows below the triangle are computed anew. -/
def lMultInplace (LU XInout : V) : Prog σ Unit :=
  forDown 0 (nRow LU) fun i =>
    if nCol LU ≤ i then do
      clearRow XInout i
      forDown 0 (nCol LU) fun j => do
        let a ← getEl LU i j
        multaddRow XInout j a XInout i
    else
      forDown 0 i fun j => do
        let a ← getEl LU i j
        multaddRow XInout j a XInout i

/-- Multiply with U in place. -/
def uMultInplace (LU XInout : V) : Prog σ Unit :=
  forRange 0 (min (nCol LU) (nRow LU)) fun i => do
    let d ← getEl LU i i
    multRow XInout i d
    forRange (i + 1) (nCol LU) fun j => do
      let a ← getEl LU i j
      multaddRow XInout j a XInout i

/-- Compute `P L U Q X` in place.  The views of the input and of the output
share their storage and differ in height only. -/
def luMultInplace (LU : V) (invRowperm colperm : Option (Array ℕ)) (XInout : V) :
    Prog σ Unit := do
  ensure (nCol LU ≤ nRow XInout)
  ensure (nRow LU ≤ nRow XInout)
  let X ← getSubview XInout 0 0 (nCol LU) (nCol XInout)
  let Y ← getSubview XInout 0 0 (nRow LU) (nCol XInout)
  permuteRowsOpt X colperm
  uMultInplace LU XInout
  lMultInplace LU XInout
  permuteRowsOpt Y invRowperm

end MvMatrix

end TvRQ
