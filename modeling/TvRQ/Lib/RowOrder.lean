/-
# The order of the rows, said without eliminating

With full column rank the pivots of an elimination are in the columns from left
to right.  Which row is the pivot of a column, and which rows get a multiplier in
it, depends on which rows are combinations of others.  So both can be said of the
table that the elimination starts with.
-/

import TvRQ.Lib.Pluq

namespace Table

end Table

namespace Elimination

open Finset

variable {F : Type*} [Field F]

section Factored

variable {A M : Table F} {σ : Equiv.Perm ℕ} {i r : ℕ} {a : ℕ → F} {e : F}

end Factored

/-! ## Rounds of an elimination -/

section Rounds

variable {A : Table F} {n m i r q : ℕ} {s t : State F} {σ : Equiv.Perm ℕ}

end Rounds

/-! ## Multipliers -/

namespace Finished

variable {A : Table F} {n m q j : ℕ} {t : State F}

end Finished

end Elimination
