/-
# The types of the API

The structures behind the opaque types of `rq_api.h` and its error codes.
-/

import TvRQ.Algebra.M256v
import TvRQ.Lib.MachineInt
import TvRQ.Rfc6330.Parameters

namespace TvRQ

open Imperative

def rqMaxK : ℤ := 56403
def rqDefaultMaxExtra : ℤ := 30

def rqErrEnomem : ℤ := -1
def rqErrEdom : ℤ := -2
def rqErrMaxIdsReached : ℤ := -3
def rqErrInsuffIds : ℤ := -4

/-! ## Structures -/

/-- The sizes that `RqInterGetMemSizes` stores where it is given a pointer. -/
structure InterMemSizes where
  interWorkMemSize : Option ℕ
  interProgMemSize : Option ℕ
  interSymNum : Option ℕ
  deriving DecidableEq, Repr

/-- `RqInterWorkMem_` and `RqOutWorkMem_`, which have the same fields.  The
array has as many members as the memory has room for. -/
structure RqWorkMem where
  params : Parameters
  nESIMax : ℤ
  nESI : ℤ
  ESIs : Array UInt32
  deriving DecidableEq, Repr

/-- `RqInterProgram_`. -/
structure RqInterProgram where
  LU : M256v
  luStorage : Ptr
  nESI : ℤ
  rowperm : Array ℕ
  deriving DecidableEq, Repr

/-- `RqOutProgram_`. -/
structure RqOutProgram where
  params : Parameters
  unused : ℤ
  nESI : ℤ
  ESIs : Array UInt32
  deriving DecidableEq, Repr

/-- `sizeof(RqInterWorkMem)` and `sizeof(RqOutWorkMem)`: thirteen numbers. -/
def sizeofWorkMem : ℕ := 52

/-- `sizeof(RqInterProgram)`: the view, a pointer and a number, padded. -/
def sizeofInterProgram : ℕ := 40

/-- `sizeof(RqOutProgram)`, which is asserted to be the size of the work memory. -/
def sizeofOutProgram : ℕ := 52

end TvRQ
