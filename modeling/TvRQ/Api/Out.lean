/-
# Output symbol functions

The `RqOut` functions of `tvrq_api.c`.  Compiling copies the work memory into
the program memory as it lies there, so both are described by the 32-bit words
they consist of.
-/

import TvRQ.Api.Inter

namespace TvRQ

open Imperative

/-- The size of both buffers for the given number of symbols. -/
def rqOutGetMemSizes (nOutSymNum : ℤ) (askWork askProg : Bool) : ℤ × Option ℕ × Option ℕ :=
  let sz := sizeOf64 (sizeofWorkMem + nOutSymNum * 4)
  (0, if askWork then some sz else none, if askProg then some sz else none)

/-- Initialise work memory of the given size. -/
def rqOutInit (nK : ℤ) (nOutWorkMemSize : ℕ) : Prog RqWorkMem ℤ :=
  if sizeofWorkMem > nOutWorkMemSize then
    pure rqErrEnomem
  else do
    let params ← embed (parametersGet nK)
    modify fun w => { w with params := params }
    if params.K = -1 then
      pure rqErrEdom
    else do
      let nESIMax := wrap32 ((nOutWorkMemSize - sizeofWorkMem) / 4 : ℕ)
      modify fun w => { w with nESIMax := nESIMax, nESI := 0 }
      pure 0

def rqOutAddIds (nOutSymIdBeg nOutSymIdAdd : ℤ) : Prog RqWorkMem ℤ :=
  addIds nOutSymIdBeg nOutSymIdAdd

/-! ## Memory images -/

/-- The words of the parameters. -/
def Parameters.words (P : Parameters) : List UInt32 :=
  UInt32.ofInt P.K :: ([P.Kprime, P.J, P.L, P.S, P.H, P.B, P.W, P.P, P.P1, P.U].map UInt32.ofNat)

/-- The words of the work memory. -/
def RqWorkMem.words (w : RqWorkMem) : List UInt32 :=
  w.params.words ++ UInt32.ofInt w.nESIMax :: UInt32.ofInt w.nESI :: w.ESIs.toList

/-- The number that a word stands for as an `int`. -/
@[irreducible]
def intOfWord (v : UInt32) : ℤ := wrap32 v.toNat

/-- The program that lies in memory with the given words. -/
def RqOutProgram.ofWords (words : Array UInt32) : RqOutProgram where
  params :=
    { K := intOfWord (words.getD 0 0), Kprime := (words.getD 1 0).toNat
      J := (words.getD 2 0).toNat, L := (words.getD 3 0).toNat, S := (words.getD 4 0).toNat
      H := (words.getD 5 0).toNat, B := (words.getD 6 0).toNat, W := (words.getD 7 0).toNat
      P := (words.getD 8 0).toNat, P1 := (words.getD 9 0).toNat, U := (words.getD 10 0).toNat }
  unused := intOfWord (words.getD 11 0)
  nESI := intOfWord (words.getD 12 0)
  ESIs := words.extract 13 words.size

/-- `memcpy` of `sz` bytes, a multiple of the word size, from `src` to the start
of the memory. -/
def memcpyWords (src : List UInt32) (sz : ℕ) : Prog (Array UInt32) Unit :=
  forRange 0 (sz / 4) fun i => do
    let v ← readArray src.toArray i
    let dest ← get
    let dest ← writeArray dest i v
    modify fun _ => dest

/-- Compile a program into memory of the given size. -/
def rqOutCompile (w : RqWorkMem) (nOutProgMemSize : ℕ) : Prog (Array UInt32) ℤ := do
  let sz := sizeOf64 (sizeofOutProgram + w.nESI * 4)
  if sz < nOutProgMemSize then
    pure rqErrEnomem
  else do
    memcpyWords w.words sz
    pure 0

/-! ## Execution -/

/-- The loop that steps below `P1` at least once, until it is below `P`. -/
def stepPi (P : Parameters) (a1 b1 : ℕ) : Except Fault ℕ :=
  doWhileLoop (fun x => P.P ≤ x) (fun x => (x + a1) % P.P1) (P.P1 + 1) b1

/-- Compute the symbols of the program's IDs from the intermediate block. -/
def rqOutExecute (prog : RqOutProgram) (nSymSize : ℕ) (interSymMem outSymMem : Ptr)
    (nOutSymMemSize : ℕ) : Prog (Heap UInt8) ℤ :=
  if nOutSymMemSize < prog.nESI.toNat * nSymSize then
    pure rqErrEnomem
  else do
    let P := prog.params
    let nSymSize ← embed (intOfSize nSymSize)
    let O := M256v.make prog.nESI.toNat nSymSize outSymMem
    let I := M256v.make P.L nSymSize interSymMem
    forRange 0 prog.nESI.toNat fun i => do
      let esi ← readArray prog.ESIs i
      let T ← embed (tupleGenerateFromESI esi P)
      I.copyRow T.b O i
      let _ ← foldRange 1 T.d T.b fun _ b => do
        let b := (b + T.a) % P.W
        I.multaddRow b 1 O i
        pure b
      let b1 ← embed (skipPi P T.a1 T.b1)
      I.multaddRow (P.W + b1) 1 O i
      let _ ← foldRange 1 T.d1 b1 fun _ b1 => do
        let b1 ← embed (stepPi P T.a1 b1)
        I.multaddRow (P.W + b1) 1 O i
        pure b1
      pure ()
    pure 0

end TvRQ
