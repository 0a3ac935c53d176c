/-
# Transcoding files

`transcode` of `file_enc_dec.cpp` and `getProgram` of `rq_failprob.c`: clients of
the library that ask for the sizes of the buffers, compile the IDs they are
given one by one, and check what every call returns.  The memory that they get
from `malloc` and on the stack is there from the beginning, with anything in it.
-/

import TvRQ.Api.SessionRuns

namespace TvRQ

open Imperative

/-- `RUN_NOFAIL`: make the calls in turn up to the first that has failed. -/
def runNofail {σ : Type} (failed : ℤ → Bool) : List (Prog σ ℤ) → Prog σ ℤ
  | [] => pure 0
  | p :: ps => do
      let err ← p
      if failed err then
        pure err
      else
        runNofail failed ps

/-- Add one ID; the function takes it as an `int32_t`. -/
def addOne (X : UInt32) : Call := .interAddIds (intOfWord X) 1

def outAddOne (X : UInt32) : Call := .outAddIds (intOfWord X) 1

/-- The buffers of the given sizes, with the program at the given place. -/
def Sizes.ofQuery (sizes : InterMemSizes) (out : ℤ × Option ℕ × Option ℕ) (progMem : Ptr) :
    Sizes where
  interWorkSize := sizes.interWorkMemSize.getD 0
  interProgMem := progMem
  interProgSize := sizes.interProgMemSize.getD 0
  outWorkSize := out.2.1.getD 0
  outProgSize := out.2.2.getD 0

/-- Compile a program for the IDs; the result is an error code. -/
def getProgram (K : ℤ) (ESIs : List UInt32) (progMem : Ptr) : Prog Client ℤ := do
  let nExtra ← embed (intOf (ESIs.length - K))
  let (err, sizes) ← embed (rqInterGetMemSizes K nExtra true true false)
  if err < 0 then
    pure err
  else do
    let z : Sizes := .ofQuery sizes (0, none, none) progMem
    let err ← runNofail (· < 0) (Call.run z (.interInit K nExtra) ::
      ESIs.map fun X => Call.run z (addOne X))
    if err < 0 then
      pure err
    else
      Call.run z .interCompile

/-- The arrays of `transcode`, one for each kind of symbols. -/
structure FileBuffers where
  progMem : Ptr
  src : Ptr
  iblock : Ptr
  enc : Ptr

/-- Write bytes one after the other. -/
def writeBytes (z : Sizes) : Ptr → List UInt8 → Prog Client Unit
  | _, [] => pure ()
  | p, v :: vs => do
      let _ ← Call.run z (.write p v)
      writeBytes z (p.add 1) vs

def readBytes : ℕ → Ptr → Prog (Heap UInt8) (List UInt8)
  | 0, _ => pure []
  | n + 1, p => do
      let v ← load p
      let vs ← readBytes n (p.add 1)
      pure (v :: vs)

/-- Both programs, from the first call to the last one before the file is read.
The results of adding the input IDs are not looked at. -/
def prepare (z : Sizes) (K nExtra : ℤ) (symSize : ℕ) (input output : List UInt32) :
    Prog Client ℤ :=
  runNofail (· ≠ 0) <|
    [Call.run z (.interInit K nExtra),
      do
        forM input fun X => do
          let _ ← Call.run z (addOne X)
        pure 0,
      Call.run z .interCompile,
      do
        let _ ← embed (intOf (output.length * symSize))
        pure 0,
      Call.run z (.outInit K)] ++
    ((output.map fun X => Call.run z (outAddOne X)) ++ [Call.run z .outCompile])

/-- The loop over the file, of which `rest` is still to be read.  The result is
the status and what has been written.  A read that reaches the end of the file
before it has all its bytes sets the status. -/
def transcodeLoop (z : Sizes) (x : FileBuffers) (symSize n nInter m : ℕ) :
    ℕ → List UInt8 → Prog Client (ℤ × List UInt8)
  | 0, _ => throw .diverges
  | fuel + 1, rest =>
      if rest.length = 0 then
        pure (0, [])
      else do
        writeBytes z x.src (List.replicate (n * symSize) 0)
        writeBytes z x.src (rest.take (n * symSize))
        if rest.length < n * symSize then
          pure (1, [])
        else do
          let err ← runNofail (· ≠ 0)
            [Call.run z (.interExecute symSize x.src (n * symSize) x.iblock (nInter * symSize)),
              do
                writeBytes z x.enc (List.replicate (m * symSize) 0)
                pure 0,
              Call.run z (.outExecute symSize x.iblock x.enc (m * symSize))]
          if err ≠ 0 then
            pure (err, [])
          else do
            let block ← Client.onHeap (readBytes (m * symSize) x.enc)
            let (status, more) ←
              transcodeLoop z x symSize n nInter m fuel (rest.drop (n * symSize))
            pure (status, block ++ more)

/-- The status and the contents of the output file. -/
def transcode (K : ℤ) (symSize : ℕ) (input output : List UInt32) (file : List UInt8)
    (x : FileBuffers) : Prog Client (ℤ × List UInt8) := do
  let _ ← embed (intOf file.length)
  let _ ← embed (intOf (input.length * symSize))
  let nExtra ← embed (intOf (input.length - K))
  let (err, sizes) ← embed (rqInterGetMemSizes K nExtra true true true)
  if err ≠ 0 then
    pure (err, [])
  else do
    let z : Sizes :=
      .ofQuery sizes (rqOutGetMemSizes output.length true true) x.progMem
    let err ← prepare z K nExtra symSize input output
    if err ≠ 0 then
      pure (err, [])
    else
      transcodeLoop z x symSize input.length (sizes.interSymNum.getD 0) output.length
        (file.length + 1) file

end TvRQ
