/-
# Generic matrix algorithms

`mv_generic.h` is included once for every view type and calls the operations
of that type through a name prefix.  Here the prefix is a class: the generic
functions below are written against it, word for word as in the header, and
each view type supplies an instance.
-/

import TvRQ.Lib.Heap

namespace TvRQ

open Imperative

/-- What the header expects of `MV_GEN_TYPE`, with entries of `MV_GEN_ELTYPE`. -/
class MvGen (V : Type) (σ E : outParam Type) where
  nRow : V → ℕ
  nCol : V → ℕ
  /-- A local matrix with its backend storage on the stack. -/
  localView : ℕ → ℕ → Prog σ V
  /-- The end of the scope of the local matrix declared last. -/
  endLocal : Prog σ Unit
  getSubview : V → ℕ → ℕ → ℕ → ℕ → Prog σ V
  getEl : V → ℕ → ℕ → Prog σ E
  setEl : V → ℕ → ℕ → E → Prog σ Unit
  swapRows : V → ℕ → ℕ → Prog σ Unit
  clearRow : V → ℕ → Prog σ Unit
  multRow : V → ℕ → E → Prog σ Unit
  multaddRow : V → ℕ → E → V → ℕ → Prog σ Unit
  multaddRowFrom : V → ℕ → ℕ → E → V → ℕ → Prog σ Unit
  copyRow : V → ℕ → V → ℕ → Prog σ Unit
  swapCols : V → ℕ → ℕ → Prog σ Unit
  multColFrom : V → ℕ → ℕ → E → Prog σ Unit
  finv : E → Except Fault E

/-- All of what the header expects of `MV_GEN_TYPE`: the operations that the
decomposition and the solvers do without, and the field arithmetic. -/
class MvGenAll (V : Type) (σ E : outParam Type) extends MvGen V σ E where
  rowIszero : V → ℕ → Prog σ Bool
  copyCol : V → ℕ → V → ℕ → Prog σ Unit
  fadd : E → E → E
  fmul : E → E → Except Fault E

namespace MvGen

variable {V σ E : Type} [MvGen V σ E]

/-- Set all entries to zero. -/
def clear (M : V) : Prog σ Unit :=
  forRange 0 (nRow M) fun i => clearRow M i

/-! ## Permuting rows -/

/-- The cycle of `rowperm` that starts at row `i`: every row takes the contents
of the row it comes from, and the last one those of row `i`, which were saved.
Each pass marks a row that is asserted to be unmarked, so the fuel, one more
than the number of rows, is never what ends the loop. -/
def permuteCycle (M rowbuf : V) (rowperm : Array ℕ) (i : ℕ) (visited : Array Bool) :
    Prog σ (Array Bool) := do
  copyRow M i rowbuf 0
  let eNext ← readArray rowperm i
  let (e, _, visited) ← whileDo (fun x : ℕ × ℕ × Array Bool => x.2.1 != i)
    (fun (e, eNext, visited) => do
      let seen ← readArray visited eNext
      ensure (seen = false)
      let visited ← writeArray visited eNext true
      copyRow M eNext M e
      let next ← readArray rowperm eNext
      pure (eNext, next, visited))
    (nRow M + 1) (i, eNext, visited)
  let visited ← writeArray visited i true
  copyRow rowbuf 0 M e
  pure visited

/-- Move row `rowperm[i]` to row `i`, for every `i`, in place. -/
def permuteRows (M : V) (rowperm : Array ℕ) : Prog σ Unit := do
  let rowbuf ← localView 1 (nCol M)
  let _ ← foldRange 0 (nRow M) (Array.replicate (nRow M) false) fun i visited => do
    let seen ← readArray visited i
    if seen then
      pure visited
    else
      let from_ ← readArray rowperm i
      if from_ = i then
        writeArray visited i true
      else
        permuteCycle M rowbuf rowperm i visited
  endLocal V

/-! ## LU decomposition -/

/-- `SwapInt` on two members of an array. -/
def swapInt (xs : Array ℕ) (a b : ℕ) : Prog σ (Array ℕ) := do
  let s ← readArray xs b
  let t ← readArray xs a
  let xs ← writeArray xs b t
  writeArray xs a s

section Decompose

variable [Zero E] [DecidableEq E]

/-- The two nested loops that look for a pivot and are left by a `goto`. -/
def findPivot (A : V) (i : ℕ) : Prog σ (Option (ℕ × ℕ)) :=
  findRange i (nCol A) fun pcol =>
    findRange i (nRow A) fun prow => do
      let v ← getEl A prow pcol
      pure (if v ≠ 0 then some (prow, pcol) else none)

/-- Exchange rows `i` and `prow` and record it. -/
def pivotRow (A : V) (i prow : ℕ) (rp : Array ℕ) : Prog σ (Array ℕ) :=
  if prow ≠ i then do
    let rp ← swapInt rp i prow
    swapRows A i prow
    pure rp
  else
    pure rp

/-- Exchange columns `pcol` and `i` and record it. -/
def pivotCol (A : V) (i pcol : ℕ) (cp : Array ℕ) : Prog σ (Array ℕ) :=
  if pcol ≠ i then do
    let cp ← swapInt cp i pcol
    swapCols A pcol i
    pure cp
  else
    pure cp

/-- Compute column `i` of L, then update the undecomposed part. -/
def eliminateBelow (A : V) (i : ℕ) : Prog σ Unit := do
  let uii ← getEl A i i
  let uiiInv ← embed (finv V uii)
  multColFrom A i (i + 1) uiiInv
  forRange (i + 1) (nRow A) fun j => do
    let lji ← getEl A j i
    multaddRowFrom A i (i + 1) lji A j

/-- One pass of the main loop, which breaks when no pivot is left.  The search
has then run to its last column, which is what the source asserts. -/
def luRound (A : V) (i : ℕ) (perms : Array ℕ × Array ℕ) :
    Prog σ (Option (Array ℕ × Array ℕ)) := do
  match ← findPivot A i with
  | none => pure none
  | some (prow, pcol) =>
      let rp ← pivotRow A i prow perms.1
      let cp ← pivotCol A i pcol perms.2
      eliminateBelow A i
      pure (some (rp, cp))

/-- Decompose `A` in place; the result is its rank and the two permutations,
which start as the identity. -/
def luDecompInplace (A : V) : Prog σ (ℕ × Array ℕ × Array ℕ) :=
  breakRange 0 (min (nCol A) (nRow A)) (Array.range (nRow A), Array.range (nCol A))
    (luRound A)

end Decompose

/-! ## Solving with the decomposition -/

/-- The row of the unknowns that `placements` assigns to index `i`; with a null
pointer it is row `i` itself. -/
def placement (placements : Option (Array ℕ)) (i : ℕ) : Prog σ ℕ :=
  match placements with
  | some pl => readArray pl i
  | none => pure i

/-- Apply the inverse of L to the placed rows. -/
def lInvmultInplaceP (LU : V) (rank : ℕ) (X : V) (placements : Option (Array ℕ)) :
    Prog σ Unit :=
  forRange 0 rank fun i => do
    let pi ← placement placements i
    forRange 0 i fun j => do
      let pj ← placement placements j
      let a ← getEl LU i j
      multaddRow X pj a X pi

/-- Apply the inverse of U to the placed rows. -/
def uInvmultInplaceP (LU : V) (rank : ℕ) (X : V) (placements : Option (Array ℕ)) :
    Prog σ Unit :=
  forDown 0 rank fun i => do
    let pi ← placement placements i
    forRange (i + 1) (nCol LU) fun j => do
      let pj ← placement placements j
      let a ← getEl LU i j
      multaddRow X pj a X pi
    let d ← getEl LU i i
    let dInv ← embed (finv V d)
    multRow X pi dInv

def lInvmultInplace (LU : V) (rank : ℕ) (X : V) : Prog σ Unit :=
  lInvmultInplaceP LU rank X none

def uInvmultInplace (LU : V) (rank : ℕ) (X : V) : Prog σ Unit :=
  uInvmultInplaceP LU rank X none

/-- The rank to solve with; -1 stands for the largest one possible. -/
def solveRank (LU : V) (rank : ℤ) : ℕ :=
  if rank = -1 then min (nCol LU) (nRow LU) else rank.toNat

/-- Apply a row permutation unless the pointer to it is null. -/
def permuteRowsOpt (M : V) : Option (Array ℕ) → Prog σ Unit
  | some rowperm => permuteRows M rowperm
  | none => pure ()

/-- Solve with the decomposition in place.  The views of the right-hand side and
of the solution share their storage and differ in height only. -/
def luInvmultInplace (LU : V) (rank : ℤ) (rowperm invColperm : Option (Array ℕ)) (XInout : V) :
    Prog σ Unit := do
  ensure (nCol LU ≤ nRow XInout)
  ensure (nRow LU ≤ nRow XInout)
  let X ← getSubview XInout 0 0 (nCol LU) (nCol XInout)
  let Y ← getSubview XInout 0 0 (nRow LU) (nCol XInout)
  permuteRowsOpt Y rowperm
  lInvmultInplace LU (solveRank LU rank) Y
  uInvmultInplace LU (solveRank LU rank) X
  permuteRowsOpt X invColperm

end MvGen

end TvRQ
