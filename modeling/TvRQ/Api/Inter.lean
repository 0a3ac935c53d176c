/-
# Intermediate block functions

The `RqInter` functions of `tvrq_api.c`.  The first four work on the work
memory; the compiler writes the factors of the constraint matrix into the
program memory, and the execution reads them there and works on the blocks of
symbols.
-/

import TvRQ.Api.Types
import TvRQ.Rq.RqMatrix

namespace TvRQ

open Imperative

/-- The sizes of the buffers; a null pointer is not asked for. -/
def rqInterGetMemSizes (nMaxK nMaxExtra : ℤ) (askWork askProg askSymNum : Bool) :
    Except Fault (ℤ × InterMemSizes) := do
  let params ← parametersGet nMaxK
  if params.K = -1 then
    pure (rqErrEdom, ⟨none, none, none⟩)
  else do
    let maxISIcount ← intOf (nMaxExtra + params.Kprime)
    let work := if askWork then some (sizeOf64 (sizeofWorkMem + maxISIcount * 4)) else none
    let nRows ← intOf (maxISIcount + params.S)
    let nRows ← intOf (nRows + params.H)
    let nCols : ℤ := params.L
    let prog ← if askProg then do
        let entries ← intOf (nRows * nCols)
        pure (some (sizeOf64 (sizeofInterProgram + 4 * nRows + entries)))
      else
        pure none
    let symNum := if askSymNum then some params.L else none
    pure (0, ⟨work, prog, symNum⟩)

/-- Initialise work memory of the given size. -/
def rqInterInit (nK nMaxExtra : ℤ) (nInterWorkMemSize : ℕ) : Prog RqWorkMem ℤ :=
  if nInterWorkMemSize < sizeofWorkMem then
    pure rqErrEnomem
  else do
    let params ← embed (parametersGet nK)
    modify fun w => { w with params := params }
    if params.K = -1 then
      pure rqErrEdom
    else do
      ensure (params.K = nK)
      let nESIMax := wrap32 ((nInterWorkMemSize - sizeofWorkMem) / 4 : ℕ)
      modify fun w => { w with nESIMax := nESIMax }
      if nESIMax < wrap32 (nK + nMaxExtra) then
        pure rqErrEnomem
      else do
        modify fun w => { w with nESI := 0 }
        pure 0

/-- Store one ID behind the others and count it. -/
def pushId (id : UInt32) : Prog RqWorkMem Unit := do
  let w ← get
  if w.nESI < 0 then
    throw .outOfBounds
  else do
    let ESIs ← writeArray w.ESIs w.nESI.toNat id
    let nESI ← embed (intOf (w.nESI + 1))
    modify fun w => { w with nESI := nESI, ESIs := ESIs }

/-- Add the IDs `nSymIdBeg`, `nSymIdBeg + 1`, and so on, or as many of them as
fit.  `RqInterAddIds` and `RqOutAddIds` have this body in common. -/
def addIds (nSymIdBeg nSymIdAdd : ℤ) : Prog RqWorkMem ℤ := do
  let w ← get
  if w.nESIMax < wrap32 (w.nESI + nSymIdAdd) then do
    forRange 0 (w.nESIMax - w.nESI).toNat fun i => pushId (UInt32.ofInt (nSymIdBeg + i))
    pure rqErrMaxIdsReached
  else do
    forRange 0 nSymIdAdd.toNat fun i => pushId (UInt32.ofInt (nSymIdBeg + i))
    pure 0

def rqInterAddIds (nInSymIdBeg nInSymIdAdd : ℤ) : Prog RqWorkMem ℤ :=
  addIds nInSymIdBeg nInSymIdAdd

/-- The number of rows of the constraint matrix. -/
def interRows (w : RqWorkMem) : ℤ :=
  wrap32 (w.nESI + w.params.Kprime - w.params.K + w.params.S + w.params.H)

/-- The size of the program that is compiled from the work memory. -/
def interMemNeeded (w : RqWorkMem) : ℕ :=
  sizeOf64 (sizeofInterProgram + 4 * interRows w + interRows w * w.params.L)

/-- Compile a program into memory of the given size.  There is none in the
result when the memory is left alone. -/
def rqInterCompile (w : RqWorkMem) (interProgMem : Ptr) (nInterProgMemSize : ℕ) :
    Prog (Heap UInt8) (ℤ × Option RqInterProgram) :=
  if nInterProgMemSize < interMemNeeded w then
    pure (rqErrEnomem, none)
  else do
    let nRows := (interRows w).toNat
    let nCols := w.params.L
    let luStorage := interProgMem.add (sizeofInterProgram + 4 * nRows)
    let LU := M256v.make nRows nCols luStorage
    rqMatrixGenerate LU w.params w.nESI.toNat w.ESIs
    let (rank, rowperm, colperm) ← MvGen.luDecompInplace LU
    if rank < nCols then
      pure (rqErrInsuffIds, some ⟨LU, luStorage, w.nESI, rowperm⟩)
    else do
      forRange 0 nCols fun i => do
        let c ← readArray colperm i
        ensure (c = i)
      ensure (rank = nCols)
      pure (0, some ⟨{ LU with nRow := rank }, luStorage, w.nESI, rowperm⟩)

/-- Compute the intermediate block from the symbols of the program's IDs. -/
def rqInterExecute (prog : RqInterProgram) (nSymSize : ℕ) (inSymMem : Ptr)
    (_nInSymMemSize : ℕ) (interSymMem : Ptr) (nInterSymMemSize : ℕ) : Prog (Heap UInt8) ℤ :=
  if nInterSymMemSize < prog.LU.nCol * nSymSize then
    pure rqErrEnomem
  else do
    let nSymSize ← embed (intOfSize nSymSize)
    let IB := M256v.make prog.LU.nCol nSymSize interSymMem
    let Y := M256v.make prog.nESI.toNat nSymSize inSymMem
    forRange 0 prog.LU.nRow fun i => do
      let l ← readArray prog.rowperm i
      if prog.nESI ≤ l then
        IB.clearRow i
      else
        Y.copyRow l IB i
    MvGen.luInvmultInplace prog.LU (-1) none none IB
    pure 0

end TvRQ
