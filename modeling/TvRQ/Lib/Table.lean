/-
# Tables and elementary operations on them

A table gives an entry for every row and column number; the program that works
on it decides which of them exist.  The operations are the elementary row and
column operations of elimination, each with its entries as its definition.
-/

import Mathlib.Algebra.Field.Defs
import Mathlib.Algebra.Ring.Hom.Defs
import Mathlib.Logic.Equiv.Basic
import Mathlib.Order.Nat

/-- Entries indexed by row and column number. -/
abbrev Table (F : Type*) := ℕ → ℕ → F

namespace Table

variable {F : Type*}

/-- Apply a function to every entry. -/
def map {K : Type*} (A : Table F) (f : F → K) : Table K := fun i j => f (A i j)

/-- Ones where `p` holds and zeros elsewhere. -/
def ones [Zero F] [One F] (p : ℕ → ℕ → Prop) [∀ i j, Decidable (p i j)] : Table F :=
  fun i j => if p i j then 1 else 0

/-- Overwrite one entry. -/
def set (A : Table F) (r c : ℕ) (v : F) : Table F :=
  fun i j => if i = r ∧ j = c then v else A i j

/-- Exchange rows `r₁` and `r₂`. -/
def swapRows (A : Table F) (r₁ r₂ : ℕ) : Table F :=
  fun i j => A (Equiv.swap r₁ r₂ i) j

/-- Exchange columns `c₁` and `c₂`. -/
def swapCols (A : Table F) (c₁ c₂ : ℕ) : Table F :=
  fun i j => A i (Equiv.swap c₁ c₂ j)

/-- Put zeros into row `r`. -/
def clearRow [Zero F] (A : Table F) (r : ℕ) : Table F :=
  fun i j => if i = r then 0 else A i j

/-- Multiply row `r` by `α`. -/
def multRow [Mul F] (A : Table F) (r : ℕ) (α : F) : Table F :=
  fun i j => if i = r then α * A r j else A i j

/-- Add `α` times row `r` of `B` to row `t` of `A`, from column `offs` on. -/
def multaddRowFrom [Add F] [Mul F] (B : Table F) (r offs : ℕ) (α : F) (A : Table F)
    (t : ℕ) : Table F :=
  fun i j => if i = t ∧ offs ≤ j then A i j + α * B r j else A i j

/-- Add `w` to row `t`. -/
def addRow [Add F] (A : Table F) (t : ℕ) (w : ℕ → F) : Table F :=
  fun i j => if i = t then A i j + w j else A i j

/-- Replace row `t` of `A` by row `r` of `B`. -/
def copyRow (B : Table F) (r : ℕ) (A : Table F) (t : ℕ) : Table F :=
  fun i j => if i = t then B r j else A i j

/-- Replace column `t` of `A` by column `c` of `B`. -/
def copyCol (B : Table F) (c : ℕ) (A : Table F) (t : ℕ) : Table F :=
  fun i j => if j = t then B i c else A i j

/-- Multiply column `c` by `α`, from row `offs` on. -/
def multColFrom [Mul F] (A : Table F) (c offs : ℕ) (α : F) : Table F :=
  fun i j => if j = c ∧ offs ≤ i then α * A i c else A i j

/-- The entries from row `ro` and column `co` on. -/
def block (A : Table F) (ro co : ℕ) : Table F := fun i j => A (ro + i) (co + j)

/-- Replace the `n × m` block at row `ro` and column `co` by `B`. -/
def patch (A : Table F) (ro co n m : ℕ) (B : Table F) : Table F :=
  fun i j => if ro ≤ i ∧ i < ro + n ∧ co ≤ j ∧ j < co + m then B (i - ro) (j - co) else A i j

/-- Rows `r₁` and `r₂` exchanged in the columns before `k`. -/
def swapRowsBefore (A : Table F) (r₁ r₂ k : ℕ) : Table F :=
  fun i j => if j < k then A.swapRows r₁ r₂ i j else A i j

/-- Columns `c₁` and `c₂` exchanged in the rows before `k`. -/
def swapColsBefore (A : Table F) (c₁ c₂ k : ℕ) : Table F :=
  fun i j => if i < k then A.swapCols c₁ c₂ i j else A i j

/-- The `m` columns wide block `B` is put at row `ro` and column `co`, row by row, up to its
entry in row `r` and column `c`. -/
def patchBefore (A : Table F) (ro co m r c : ℕ) (B : Table F) : Table F :=
  fun i j => if ro ≤ i ∧ co ≤ j ∧ j < co + m ∧ (i < ro + r ∨ i = ro + r ∧ j < co + c) then
    B (i - ro) (j - co) else A i j

section Patch

variable (A : Table F) {ro co n m r c : ℕ} (B : Table F)

theorem patchBefore_zero (ro co m : ℕ) : A.patchBefore ro co m 0 0 B = A := by
  funext i j
  exact if_neg (by omega)

theorem patchBefore_set (hc : c < m) : (A.patchBefore ro co m r c B).set (r + ro) (c + co) (B r c) =
    A.patchBefore ro co m r (c + 1) B := by
  funext i j
  unfold set patchBefore
  by_cases hij : i = r + ro ∧ j = c + co
  · obtain ⟨rfl, rfl⟩ := hij
    rw [if_pos ⟨rfl, rfl⟩, if_pos (by omega), Nat.add_sub_cancel, Nat.add_sub_cancel]
  · have hiff : (ro ≤ i ∧ co ≤ j ∧ j < co + m ∧ (i < ro + r ∨ i = ro + r ∧ j < co + c)) ↔
        (ro ≤ i ∧ co ≤ j ∧ j < co + m ∧ (i < ro + r ∨ i = ro + r ∧ j < co + (c + 1))) := by
      omega
    simp only [if_neg hij, hiff]

/-- The end of a row is the beginning of the next one. -/
theorem patchBefore_row : A.patchBefore ro co m r m B = A.patchBefore ro co m (r + 1) 0 B := by
  funext i j
  have hiff : (ro ≤ i ∧ co ≤ j ∧ j < co + m ∧ (i < ro + r ∨ i = ro + r ∧ j < co + m)) ↔
      (ro ≤ i ∧ co ≤ j ∧ j < co + m ∧ (i < ro + (r + 1) ∨ i = ro + (r + 1) ∧ j < co + 0)) := by
    omega
  simp only [patchBefore, hiff]

theorem patchBefore_all (ro co m n : ℕ) : A.patchBefore ro co m n 0 B = A.patch ro co n m B := by
  funext i j
  have hiff : (ro ≤ i ∧ co ≤ j ∧ j < co + m ∧ (i < ro + n ∨ i = ro + n ∧ j < co + 0)) ↔
      (ro ≤ i ∧ i < ro + n ∧ co ≤ j ∧ j < co + m) := by omega
  simp only [patchBefore, patch, hiff]

/-- A block that moves towards the first row, in its rows towards the first column, or to a
place beside it, is read before it is written over. -/
theorem patchBefore_ahead {ar ac : ℕ} (hr : r < n) (hc : c < m)
    (hahead : ro < ar ∨ (ro = ar ∧ co ≤ ac) ∨ ar + n ≤ ro ∨ ac + m ≤ co ∨ co + m ≤ ac) :
    A.patchBefore ro co m r c B (r + ar) (c + ac) = A (r + ar) (c + ac) :=
  if_neg (by omega)

end Patch

theorem set_ones [Zero F] [One F] (p : ℕ → ℕ → Prop) [∀ i j, Decidable (p i j)] (r c : ℕ) :
    (ones p : Table F).set r c 1 = ones fun i j => (i = r ∧ j = c) ∨ p i j := by
  funext i j
  by_cases hij : i = r ∧ j = c
  · simp [set, ones, hij]
  · simp [set, ones, hij]

/-! ## Operations and maps -/

section Map

variable {K : Type*} [Semiring F] [Semiring K] (f : F →+* K) (A B : Table F)

theorem map_swapRows (r₁ r₂ : ℕ) : (A.swapRows r₁ r₂).map f = (A.map f).swapRows r₁ r₂ := rfl

theorem map_swapCols (c₁ c₂ : ℕ) : (A.swapCols c₁ c₂).map f = (A.map f).swapCols c₁ c₂ := rfl

theorem map_set (r c : ℕ) (v : F) : (A.set r c v).map f = (A.map f).set r c (f v) := by
  funext i j
  exact apply_ite f _ _ _

theorem map_clearRow (r : ℕ) : (A.clearRow r).map f = (A.map f).clearRow r := by
  funext i j
  simp only [map, clearRow, apply_ite f, map_zero]

theorem map_multRow (r : ℕ) (α : F) : (A.multRow r α).map f = (A.map f).multRow r (f α) := by
  funext i j
  simp only [map, multRow, apply_ite f, map_mul]

theorem map_multaddRowFrom (r offs : ℕ) (α : F) (t : ℕ) :
    (multaddRowFrom B r offs α A t).map f =
      multaddRowFrom (B.map f) r offs (f α) (A.map f) t := by
  funext i j
  simp only [map, multaddRowFrom, apply_ite f, map_add, map_mul]

theorem map_copyRow (r t : ℕ) : (copyRow B r A t).map f = copyRow (B.map f) r (A.map f) t := by
  funext i j
  exact apply_ite f _ _ _

theorem map_copyCol (c t : ℕ) : (copyCol B c A t).map f = copyCol (B.map f) c (A.map f) t := by
  funext i j
  exact apply_ite f _ _ _

theorem map_multColFrom (c offs : ℕ) (α : F) :
    (A.multColFrom c offs α).map f = (A.map f).multColFrom c offs (f α) := by
  funext i j
  simp only [map, multColFrom, apply_ite f, map_mul]

end Map

/-! ## Adding to a row -/

theorem multaddRowFrom_zero [Add F] [Mul F] (B : Table F) (r : ℕ) (α : F) (A : Table F)
    (t : ℕ) : multaddRowFrom B r 0 α A t = A.addRow t fun j => α * B r j := by
  funext i j
  simp [multaddRowFrom, addRow]

theorem addRow_self [Add F] (A : Table F) (t : ℕ) (w : ℕ → F) (j : ℕ) :
    A.addRow t w t j = A t j + w j := if_pos rfl

theorem addRow_of_ne [Add F] (A : Table F) {i t : ℕ} (w : ℕ → F) (hi : i ≠ t) :
    A.addRow t w i = A i := by
  funext j
  exact if_neg hi

theorem addRow_zero [AddMonoid F] (A : Table F) (t : ℕ) : A.addRow t (fun _ => 0) = A := by
  funext i j
  simp [addRow]

theorem addRow_addRow [AddSemigroup F] (A : Table F) (t : ℕ) (w w' : ℕ → F) :
    (A.addRow t w).addRow t w' = A.addRow t fun j => w j + w' j := by
  funext i j
  by_cases hi : i = t
  · simp [addRow, hi, add_assoc]
  · simp [addRow, hi]

/-! ## Exchanging a line with itself -/

@[simp]
theorem swapRows_self (A : Table F) (r : ℕ) : A.swapRows r r = A := by
  funext i j
  simp [swapRows]

@[simp]
theorem swapCols_self (A : Table F) (c : ℕ) : A.swapCols c c = A := by
  funext i j
  simp [swapCols]

/-! ## Exchanging one entry after the other -/

@[simp]
theorem swapRowsBefore_zero (A : Table F) (r₁ r₂ : ℕ) : A.swapRowsBefore r₁ r₂ 0 = A := by
  funext i j
  simp [swapRowsBefore]

theorem swapRowsBefore_of_lt (A : Table F) (r₁ r₂ : ℕ) {i j k : ℕ} (hj : j < k) :
    A.swapRowsBefore r₁ r₂ k i j = A.swapRows r₁ r₂ i j := if_pos hj

theorem swapRowsBefore_of_le (A : Table F) (r₁ r₂ : ℕ) {i j k : ℕ} (hj : k ≤ j) :
    A.swapRowsBefore r₁ r₂ k i j = A i j := if_neg (not_lt.mpr hj)

theorem swapRowsBefore_succ (A : Table F) (r₁ r₂ k : ℕ) :
    ((A.swapRowsBefore r₁ r₂ k).set r₁ k (A r₂ k)).set r₂ k (A r₁ k) =
      A.swapRowsBefore r₁ r₂ (k + 1) := by
  funext i j
  rcases lt_trichotomy j k with hj | rfl | hj
  · rw [swapRowsBefore_of_lt _ _ _ (Nat.lt_succ_of_lt hj)]
    simp [set, hj.ne, swapRowsBefore_of_lt _ _ _ hj]
  · rw [swapRowsBefore_of_lt _ _ _ (Nat.lt_succ_self j)]
    by_cases h₂ : i = r₂
    · simp [set, swapRows, h₂]
    · by_cases h₁ : i = r₁
      · subst h₁
        simp [set, swapRows, h₂]
      · simp [set, swapRows, h₁, h₂, swapRowsBefore, Equiv.swap_apply_of_ne_of_ne]
  · rw [swapRowsBefore_of_le _ _ _ hj]
    simp [set, hj.ne', swapRowsBefore_of_le _ _ _ hj.le]

@[simp]
theorem swapColsBefore_zero (A : Table F) (c₁ c₂ : ℕ) : A.swapColsBefore c₁ c₂ 0 = A := by
  funext i j
  simp [swapColsBefore]

theorem swapColsBefore_of_lt (A : Table F) (c₁ c₂ : ℕ) {i j k : ℕ} (hi : i < k) :
    A.swapColsBefore c₁ c₂ k i j = A.swapCols c₁ c₂ i j := if_pos hi

theorem swapColsBefore_of_le (A : Table F) (c₁ c₂ : ℕ) {i j k : ℕ} (hi : k ≤ i) :
    A.swapColsBefore c₁ c₂ k i j = A i j := if_neg (not_lt.mpr hi)

theorem swapColsBefore_succ (A : Table F) (c₁ c₂ k : ℕ) :
    ((A.swapColsBefore c₁ c₂ k).set k c₁ (A k c₂)).set k c₂ (A k c₁) =
      A.swapColsBefore c₁ c₂ (k + 1) := by
  funext i j
  have hrows := congrFun (congrFun (swapRowsBefore_succ (fun r c => A c r) c₁ c₂ k) j) i
  simpa only [set, swapRowsBefore, swapColsBefore, swapRows, swapCols, and_comm] using hrows

end Table
