/-
# Sessions

A client of the library keeps four pieces of memory, the work memory and the
program memory of both kinds of programs, and its symbols.  It may call the
functions of `rq_api.h` in any order, and write to its symbols in between.

The first part is the code: the calls as they work on the memory.  The second
part says what the library is for.  A piece of memory is empty or has a request
in it, the IDs of one code; compiling moves a request to a program; executing a
program replaces symbols.  `Step` has one rule for each outcome of a call, and
`Allowed` is what a client has to see to.
-/

import TvRQ.Api.Buffers
import TvRQ.Api.Capacity
import TvRQ.Api.OutCompile
import TvRQ.Lib.Refinement

namespace TvRQ

open Imperative Heap Finset

/-! ## Calls -/

/-- The sizes of the buffers of a client, and where the program memory lies. -/
structure Sizes where
  interWorkSize : ℕ
  interProgMem : Ptr
  interProgSize : ℕ
  outWorkSize : ℕ
  outProgSize : ℕ
  deriving DecidableEq, Repr

namespace Sizes

/-- The number of IDs that the work memory has room for. -/
def interCap (z : Sizes) : ℕ := (z.interWorkSize - sizeofWorkMem) / 4

def outCap (z : Sizes) : ℕ := (z.outWorkSize - sizeofWorkMem) / 4

end Sizes

/-- The memory of a client.  The program memory is on the heap, as are the symbols. -/
structure Client where
  interWork : RqWorkMem
  interProg : Option RqInterProgram
  outWork : RqWorkMem
  outProgMem : Array UInt32
  heap : Heap UInt8
  deriving DecidableEq, Repr

inductive Call
  | interInit (nK nMaxExtra : ℤ)
  | interAddIds (nInSymIdBeg nInSymIdAdd : ℤ)
  | interCompile
  | interExecute (nSymSize : ℕ) (inSymMem : Ptr) (nInSymMemSize : ℕ) (interSymMem : Ptr)
      (nInterSymMemSize : ℕ)
  | outInit (nK : ℤ)
  | outAddIds (nOutSymIdBeg nOutSymIdAdd : ℤ)
  | outCompile
  | outExecute (nSymSize : ℕ) (interSymMem outSymMem : Ptr) (nOutSymMemSize : ℕ)
  | write (p : Ptr) (v : UInt8)
  deriving DecidableEq, Repr

namespace Client

def onInterWork {α : Type} : Prog RqWorkMem α → Prog Client α :=
  within interWork fun w s => { s with interWork := w }

def onOutWork {α : Type} : Prog RqWorkMem α → Prog Client α :=
  within outWork fun w s => { s with outWork := w }

def onOutProgMem {α : Type} : Prog (Array UInt32) α → Prog Client α :=
  within outProgMem fun mem s => { s with outProgMem := mem }

def onHeap {α : Type} : Prog (Heap UInt8) α → Prog Client α :=
  within heap fun h s => { s with heap := h }

end Client

open Client in
/-- A call as the client makes it; the last one is a store of its own. -/
def Call.run (z : Sizes) : Call → Prog Client ℤ
  | .interInit nK nMaxExtra => onInterWork (rqInterInit nK nMaxExtra z.interWorkSize)
  | .interAddIds nBeg nAdd => onInterWork (rqInterAddIds nBeg nAdd)
  | .interCompile => do
      let s ← get
      let (ret, prog) ← onHeap (rqInterCompile s.interWork z.interProgMem z.interProgSize)
      modify fun s => { s with interProg := prog.or s.interProg }
      pure ret
  | .interExecute nSymSize inSymMem nInSymMemSize interSymMem nInterSymMemSize => do
      let s ← get
      match s.interProg with
      | none => throw .outOfBounds
      | some prog => onHeap <|
          rqInterExecute prog nSymSize inSymMem nInSymMemSize interSymMem nInterSymMemSize
  | .outInit nK => onOutWork (rqOutInit nK z.outWorkSize)
  | .outAddIds nBeg nAdd => onOutWork (rqOutAddIds nBeg nAdd)
  | .outCompile => do
      let s ← get
      onOutProgMem (rqOutCompile s.outWork z.outProgSize)
  | .outExecute nSymSize interSymMem outSymMem nOutSymMemSize => do
      let s ← get
      onHeap (rqOutExecute (.ofWords s.outProgMem) nSymSize interSymMem outSymMem nOutSymMemSize)
  | .write p v => onHeap do
      store p v
      pure 0

/-! ## What the calls are for -/

/-- Sizes that leave room for no more IDs than can be counted. -/
structure Layout extends Sizes where
  interCap_lt : toSizes.interCap < 2 ^ 30
  outCap_lt : toSizes.outCap < 2 ^ 31

/-- The IDs of symbols of one code. -/
@[ext]
structure Request where
  params : Parameters
  ids : List UInt32
  params_eq : parametersGet params.K = .ok params
  K_ne : params.K ≠ -1

namespace Request

variable (q : Request)

theorem valid : q.params.Valid := parametersGet_valid q.params_eq q.K_ne

/-- As many of the IDs of a range as there is room for come behind the others. -/
def add (cap : ℕ) (nBeg nAdd : ℤ) : Request :=
  { q with ids := (q.ids ++ requested nBeg nAdd).take cap }

/-- The size of the program for the intermediate block. -/
def interSize : ℤ := progSize (constraintRows q.params q.ids) q.params

/-- The size of the program for the symbols. -/
def outSize : ℤ := sizeofOutProgram + 4 * q.ids.length

/-- What an addition of IDs to `q` returns. -/
def addRet (cap : ℕ) (nAdd : ℤ) : ℤ :=
  if q.ids.length + nAdd ≤ cap then 0 else rqErrMaxIdsReached

/-- The counter of the IDs does not overflow. -/
def CanAdd (nAdd : ℤ) : Prop := -2 ^ 31 ≤ nAdd ∧ q.ids.length + nAdd < 2 ^ 31

end Request

/-- The bytes that are not program memory. -/
abbrev Bytes := Ptr → Option UInt8

namespace Bytes

/-- There are `n` bytes from `p` on. -/
def Allocated (m : Bytes) (p : Ptr) (n : ℕ) : Prop := ∀ k < n, (m (p.add k)).isSome

/-- The bytes from `p` on are the first `n` rows of a table, each of `w` entries. -/
def Shows (m : Bytes) (p : Ptr) (n w : ℕ) (A : Table GF256) : Prop :=
  ∀ r < n, ∀ c < w, m (p.add (r * w + c)) = some (A r c).byte

/-- From `m` to `m'` the rows of a table have been written to `p` and nothing else. -/
structure Replaced (p : Ptr) (n w : ℕ) (A : Table GF256) (m m' : Bytes) : Prop where
  shows : m'.Shows p n w A
  frame : ∀ q ∉ bytesFrom p (n * w), m' q = m q

end Bytes

/-- The buffers of an execution: `n` symbols are read and `m` are written. -/
structure SymbolBuffers (b : Bytes) (w : ℕ) (src : Ptr) (n : ℕ) (dst : Ptr) (m : ℕ) :
    Prop where
  src_allocated : b.Allocated src (n * w)
  dst_allocated : b.Allocated dst (m * w)
  apart : Disjoint (bytesFrom dst (m * w)) (bytesFrom src (n * w))

/-- What a client has in the memory that it hands to the library. -/
structure Codec where
  interWork : Option Request
  interProg : Option Request
  outWork : Option Request
  outProg : Option Request
  bytes : Bytes

namespace Layout

variable (L : Layout)

/-- What is on the heap besides the program. -/
def bytes (h : Heap UInt8) : Bytes := fun p =>
  if p.blk = L.interProgMem.blk then none else h.load p

end Layout

namespace Codec

variable (L : Layout)

/-- The calls and their outcomes. -/
inductive Step : Codec → Call → ℤ → Codec → Prop
  | interInit_noroom {a nK nMaxExtra} (hsize : L.interWorkSize < sizeofWorkMem) :
      Step a (.interInit nK nMaxExtra) rqErrEnomem a
  | interInit_unsupported {a nK nMaxExtra P} (hsize : sizeofWorkMem ≤ L.interWorkSize)
      (hget : parametersGet nK = .ok P) (hK : P.K = -1) :
      Step a (.interInit nK nMaxExtra) rqErrEdom { a with interWork := none }
  | interInit_small {a nK nMaxExtra P} (hsize : sizeofWorkMem ≤ L.interWorkSize)
      (hget : parametersGet nK = .ok P) (hK : P.K ≠ -1) (hcap : L.interCap < nK + nMaxExtra) :
      Step a (.interInit nK nMaxExtra) rqErrEnomem { a with interWork := none }
  | interInit {a nK nMaxExtra} {q : Request} (hsize : sizeofWorkMem ≤ L.interWorkSize)
      (hget : parametersGet nK = .ok q.params) (hids : q.ids = [])
      (hcap : nK + nMaxExtra ≤ L.interCap) :
      Step a (.interInit nK nMaxExtra) 0 { a with interWork := some q }
  | interAddIds {a nBeg nAdd} {q : Request} (hwork : a.interWork = some q) :
      Step a (.interAddIds nBeg nAdd) (q.addRet L.interCap nAdd)
        { a with interWork := some (q.add L.interCap nBeg nAdd) }
  | interCompile_small {a} {q : Request} (hwork : a.interWork = some q)
      (hsize : L.interProgSize < q.interSize) :
      Step a .interCompile rqErrEnomem a
  | interCompile_insuff {a} {q : Request} (hwork : a.interWork = some q)
      (hsize : q.interSize ≤ L.interProgSize) (hrank : ¬ FullRank q.params q.ids) :
      Step a .interCompile rqErrInsuffIds { a with interProg := none }
  | interCompile {a} {q : Request} (hwork : a.interWork = some q)
      (hsize : q.interSize ≤ L.interProgSize) (hrank : FullRank q.params q.ids) :
      Step a .interCompile 0 { a with interProg := some q }
  | interExecute_small {a w inMem inSize interMem interSize} {q : Request}
      (hprog : a.interProg = some q) (hsize : interSize < q.params.L * w) :
      Step a (.interExecute w inMem inSize interMem interSize) rqErrEnomem a
  | interExecute {a w inMem inSize interMem interSize bytes Y C} {q : Request}
      (hprog : a.interProg = some q) (hsize : q.params.L * w ≤ interSize)
      (hY : a.bytes.Shows inMem q.ids.length w Y) (hC : Determines q.params q.ids w Y C)
      (hbytes : a.bytes.Replaced interMem q.params.L w C bytes) :
      Step a (.interExecute w inMem inSize interMem interSize) 0 { a with bytes := bytes }
  | outInit_noroom {a nK} (hsize : L.outWorkSize < sizeofWorkMem) :
      Step a (.outInit nK) rqErrEnomem a
  | outInit_unsupported {a nK P} (hsize : sizeofWorkMem ≤ L.outWorkSize)
      (hget : parametersGet nK = .ok P) (hK : P.K = -1) :
      Step a (.outInit nK) rqErrEdom { a with outWork := none }
  | outInit {a nK} {q : Request} (hsize : sizeofWorkMem ≤ L.outWorkSize)
      (hget : parametersGet nK = .ok q.params) (hids : q.ids = []) :
      Step a (.outInit nK) 0 { a with outWork := some q }
  | outAddIds {a nBeg nAdd} {q : Request} (hwork : a.outWork = some q) :
      Step a (.outAddIds nBeg nAdd) (q.addRet L.outCap nAdd)
        { a with outWork := some (q.add L.outCap nBeg nAdd) }
  | outCompile_large {a} {q : Request} (hwork : a.outWork = some q)
      (hsize : q.outSize < L.outProgSize) :
      Step a .outCompile rqErrEnomem a
  | outCompile {a} {q : Request} (hwork : a.outWork = some q) (hsize : q.outSize = L.outProgSize) :
      Step a .outCompile 0 { a with outProg := some q }
  | outExecute_small {a w interMem outMem outSize} {q : Request} (hprog : a.outProg = some q)
      (hsize : outSize < q.ids.length * w) :
      Step a (.outExecute w interMem outMem outSize) rqErrEnomem a
  | outExecute {a w interMem outMem outSize bytes C} {q : Request} (hprog : a.outProg = some q)
      (hsize : q.ids.length * w ≤ outSize) (hC : a.bytes.Shows interMem q.params.L w C)
      (hbytes : a.bytes.Replaced outMem q.ids.length w (symbolTable q.params q.ids C) bytes) :
      Step a (.outExecute w interMem outMem outSize) 0 { a with bytes := bytes }
  | write {a p v} : Step a (.write p v) 0 { a with bytes := Function.update a.bytes p (some v) }

/-- What a client may call, and when. -/
def Allowed (a : Codec) : Call → Prop
  | .interInit nK nMaxExtra => IsInt (nK + nMaxExtra)
  | .interAddIds _ nAdd => ∃ q, a.interWork = some q ∧ q.CanAdd nAdd
  | .interCompile => ∃ q, a.interWork = some q
  | .interExecute w inMem _ interMem interSize => w < 2 ^ 31 ∧ ∃ q, a.interProg = some q ∧
      (q.params.L * w ≤ interSize →
        SymbolBuffers a.bytes w inMem q.ids.length interMem q.params.L)
  | .outInit _ => True
  | .outAddIds _ nAdd => ∃ q, a.outWork = some q ∧ q.CanAdd nAdd
  | .outCompile => ∃ q, a.outWork = some q ∧ q.outSize ≤ L.outProgSize
  | .outExecute w interMem outMem outSize => w < 2 ^ 31 ∧ ∃ q, a.outProg = some q ∧
      (q.ids.length * w ≤ outSize →
        SymbolBuffers a.bytes w interMem q.params.L outMem q.ids.length)
  | .write p _ => (a.bytes p).isSome

end Codec

/-! ## What memory stands for -/

/-- The work memory has the request in it. -/
structure WorkHolds (cap : ℕ) (w : RqWorkMem) (q : Request) : Prop where
  valid : w.Valid cap
  params_eq : w.params = q.params
  ids_eq : w.ids = q.ids

/-- The program of the request is in memory. -/
def InterProgHolds (mem : Ptr) (prog : Option RqInterProgram) (h : Heap UInt8) (q : Request) :
    Prop :=
  ∃ p t, prog = some p ∧ CompiledTo q.params q.ids mem q.params.L t p h

/-- The program for the symbols of the request is in memory. -/
structure OutProgHolds (prog : RqOutProgram) (q : Request) : Prop where
  params_eq : prog.params = q.params
  nESI_eq : prog.nESI = q.ids.length
  ids_eq : StoresIds prog.ESIs q.ids.length q.ids

/-- The memory of the client stands for a state of the specification.  Memory
that is empty there may contain anything here. -/
structure Related (L : Layout) (s : Client) (a : Codec) : Prop where
  interWork_size : s.interWork.ESIs.size = L.interCap
  outWork_size : s.outWork.ESIs.size = L.outCap
  outProg_size : s.outProgMem.size = L.outProgSize / 4
  interProg_room : ∀ k < L.interProgSize, (s.heap.load (L.interProgMem.add k)).isSome
  interWork : ∀ q, a.interWork = some q → WorkHolds L.interCap s.interWork q
  interProg : ∀ q, a.interProg = some q → InterProgHolds L.interProgMem s.interProg s.heap q
  outWork : ∀ q, a.outWork = some q → WorkHolds L.outCap s.outWork q
  outProg : ∀ q, a.outProg = some q → OutProgHolds (.ofWords s.outProgMem) q
  bytes : a.bytes = L.bytes s.heap

end TvRQ
