/-
# Views as owners of tables

What the operations of a kind of views do to the tables that the views hold,
whichever way the views lie in memory.  `HeapView` lists the laws.  For the
operations on two views they cover all positions of the views that the code
allows: one view used twice, or two views without a common cell.  `Declarable`
says of which sizes there are local views.

From the laws of copying follows what the permutations in place do.
-/

import Mathlib.Algebra.Field.Basic
import Mathlib.Logic.Equiv.Basic
import TvRQ.Algebra.MvMatrix
import TvRQ.Lib.Table

namespace TvRQ

open Imperative Heap MvGen MvGenAll

/-- Views of type `V` hold tables over the field `F`, whose elements are `el` in
the code. -/
class HeapView (V : Type) (α E F : outParam Type) [Field F] [Zero E] [One E]
    [MvGenAll V (Heap α) E] where
  el : F → E
  cells : V → Set Ptr
  Holds : V → Heap α → Table F → Prop
  Declarable : ℕ → ℕ → Prop
  el_zero : el 0 = 0
  el_one : el 1 = 1
  fadd_eq : ∀ a b, fadd V (el a) (el b) = el (a + b)
  fmul_eq : ∀ a b, fmul V (el a) (el b) = .ok (el (a * b))
  finv_eq : ∀ {a}, a ≠ 0 → finv V (el a) = .ok (el a⁻¹)
  holds_congr : ∀ {M h A B}, Holds M h A →
    (∀ r < nRow M, ∀ c < nCol M, A r c = B r c) → Holds M h B
  holds_agreeOff : ∀ {M h h' A S}, Holds M h A → AgreeOff S h h' → Disjoint S (cells M) →
    Holds M h' A
  allocated : ∀ {M h A p}, Holds M h A → p ∈ cells M → (h.load p).isSome
  getEl_iff : ∀ {M h A r c} {Q : E → Heap α → Prop}, Holds M h A → r < nRow M → c < nCol M →
    (Ends (getEl M r c) h Q ↔ Q (el (A r c)) h)
  setEl_ends : ∀ {M h A r c}, Holds M h A → r < nRow M → c < nCol M → ∀ v,
    Ends (setEl M r c (el v)) h fun _ h' => Holds M h' (A.set r c v) ∧ AgreeOff (cells M) h h'
  swapRows_ends : ∀ {M h A r₁ r₂}, Holds M h A → r₁ < nRow M → r₂ < nRow M →
    Ends (swapRows M r₁ r₂) h fun _ h' =>
      Holds M h' (A.swapRows r₁ r₂) ∧ AgreeOff (cells M) h h'
  clearRow_ends : ∀ {M h A r}, Holds M h A → r < nRow M →
    Ends (clearRow M r) h fun _ h' => Holds M h' (A.clearRow r) ∧ AgreeOff (cells M) h h'
  multRow_ends : ∀ {M h A r}, Holds M h A → r < nRow M → ∀ a,
    Ends (multRow M r (el a)) h fun _ h' => Holds M h' (A.multRow r a) ∧ AgreeOff (cells M) h h'
  multaddRow_ends : ∀ {M₁ M h A B r₁ r}, Holds M h A → Holds M₁ h B →
    (M₁ = M ∨ Disjoint (cells M) (cells M₁)) → nCol M₁ = nCol M → r₁ < nRow M₁ → r < nRow M →
    ∀ a, Ends (multaddRow M₁ r₁ (el a) M r) h fun _ h' =>
      Holds M h' (Table.multaddRowFrom B r₁ 0 a A r) ∧ AgreeOff (cells M) h h'
  multaddRowFrom_ends : ∀ {M₁ M h A B r₁ r offs}, Holds M h A → Holds M₁ h B →
    (M₁ = M ∨ Disjoint (cells M) (cells M₁)) → nCol M₁ = nCol M → r₁ < nRow M₁ → r < nRow M →
    offs < nCol M → ∀ a, Ends (multaddRowFrom M₁ r₁ offs (el a) M r) h fun _ h' =>
      Holds M h' (Table.multaddRowFrom B r₁ offs a A r) ∧ AgreeOff (cells M) h h'
  copyRow_ends : ∀ {M₁ M h A B r₁ r}, Holds M h A → Holds M₁ h B →
    (M₁ = M ∨ Disjoint (cells M) (cells M₁)) → nCol M₁ = nCol M → r₁ < nRow M₁ → r < nRow M →
    Ends (copyRow M₁ r₁ M r) h fun _ h' =>
      Holds M h' (Table.copyRow B r₁ A r) ∧ AgreeOff (cells M) h h'
  rowIszero_ends : ∀ {M h A r}, Holds M h A → r < nRow M → 0 < nCol M →
    Ends (rowIszero M r) h fun zero h' => (zero = true ↔ ∀ c < nCol M, A r c = 0) ∧ h' = h
  swapCols_ends : ∀ {M h A c₁ c₂}, Holds M h A → 0 < nRow M → c₁ < nCol M → c₂ < nCol M →
    Ends (swapCols M c₁ c₂) h fun _ h' =>
      Holds M h' (A.swapCols c₁ c₂) ∧ AgreeOff (cells M) h h'
  multColFrom_ends : ∀ {M h A c offs}, Holds M h A → c < nCol M → offs ≤ nRow M → ∀ a,
    Ends (multColFrom M c offs (el a)) h fun _ h' =>
      Holds M h' (A.multColFrom c offs a) ∧ AgreeOff (cells M) h h'
  copyCol_ends : ∀ {M₁ M h A B c₁ c}, Holds M h A → Holds M₁ h B →
    (M₁ = M ∨ Disjoint (cells M) (cells M₁)) → nRow M₁ = nRow M → c₁ < nCol M₁ → c < nCol M →
    Ends (copyCol M₁ c₁ M c) h fun _ h' =>
      Holds M h' (Table.copyCol B c₁ A c) ∧ AgreeOff (cells M) h h'
  copyRow_keeps : ∀ (M₁ : V) r₁ (M : V) r, KeepsShape (copyRow M₁ r₁ M r)
  copyCol_keeps : ∀ (M₁ : V) c₁ (M : V) c, KeepsShape (copyCol M₁ c₁ M c)
  declarable_row : ∀ {M h A}, Holds M h A → Declarable 1 (nCol M)
  declarable_col : ∀ {M h A}, Holds M h A → Declarable (nRow M) 1
  localView_ends : ∀ {n m}, Declarable n m → ∀ h, Ends (localView n m : Prog (Heap α) V) h
    fun M h' => nRow M = n ∧ nCol M = m ∧ cells M ⊆ {p | p.blk = h.blocks.size} ∧
      (∃ A, Holds M h' A) ∧ ∃ block, h' = h.withBlock block
  endLocal_eq : (endLocal V : Prog (Heap α) Unit) = release
  topView_ends : ∀ {M h n}, 0 < nRow M → n ≤ nRow M →
    Ends (getSubview M 0 0 n (nCol M)) h fun T h' => h' = h ∧
      nRow T = n ∧ nCol T = nCol M ∧ cells T ⊆ cells M ∧
      (∀ {g A}, Holds M g A → Holds T g A) ∧
      ∀ {g g' A B}, Holds M g A → Holds T g' B → AgreeOff (cells T) g g' →
        (∀ r, n ≤ r → B r = A r) → Holds M g' B

namespace HeapView

variable {V α E F : Type} [Field F] [Zero E] [One E] [MvGenAll V (Heap α) E] [HeapView V α E F]
  {M : V} {h : Heap α} {A : Table F} {π : Equiv.Perm ℕ} {perm : Array ℕ}

/-- A view that holds a table lies in the blocks that exist. -/
theorem blk_lt (hA : Holds M h A) {p : Ptr} (hp : p ∈ cells M) : p.blk < h.blocks.size := by
  obtain ⟨v, hv⟩ := Option.isSome_iff_exists.mp (allocated hA hp)
  exact blk_lt_of_load hv

/-- A view keeps its table when a local block comes to life. -/
theorem holds_withBlock (hA : Holds M h A) (block : Array α) :
    Holds M (h.withBlock block) A := by
  have hagree : AgreeOff {p | ¬ p.blk < h.blocks.size} h (h.withBlock block) :=
    fun p hp => load_withBlock (not_not.mp hp) block
  exact holds_agreeOff hA hagree (Set.disjoint_left.mpr fun p hp hmem => hp (blk_lt hA hmem))

/-- A view keeps its table when a local block ends. -/
theorem holds_dropBlock {block : Array α} {h₁ : Heap α} {B : Table F} (hA : Holds M h A)
    (hB : Holds M h₁ B) (hshape : h₁.shape = (h.withBlock block).shape) :
    Holds M h₁.dropBlock B := by
  have hagree : AgreeOff {p | ¬ p.blk < h.blocks.size} h₁ h₁.dropBlock :=
    fun p hp => load_dropBlock_of_shape hshape (not_not.mp hp)
  exact holds_agreeOff hB hagree (Set.disjoint_left.mpr fun p hp hmem => hp (blk_lt hA hmem))

/-- A local view has no cell in common with one that was there before. -/
theorem disjoint_local {buf : V} (hA : Holds M h A)
    (hbuf : cells buf ⊆ {p | p.blk = h.blocks.size}) : Disjoint (cells buf) (cells M) :=
  Set.disjoint_left.mpr fun _ hp hmem => (blk_lt hA hmem).ne (hbuf hp)

/-! ## Permutations in place -/

section Permute

variable (copy : V → ℕ → V → ℕ → Prog (Heap α) Unit) (count width : V → ℕ)
  (table : (ℕ → ℕ → F) → Table F)

/-- `copy` copies lines of views, where `table` makes a table of its lines. -/
structure CopiesLines : Prop where
  keeps : ∀ M₁ i M j, KeepsShape (copy M₁ i M j)
  congr : ∀ {M h y z}, Holds M h (table y) → (∀ i < count M, y i = z i) → Holds M h (table z)
  ends : ∀ {M₁ M h y z i j}, Holds M h (table y) → Holds M₁ h (table z) →
    (M₁ = M ∨ Disjoint (cells M) (cells M₁)) → width M₁ = width M → i < count M₁ → j < count M →
    Ends (copy M₁ i M j) h fun _ h' =>
      Holds M h' (table (Function.update y j (z i))) ∧ AgreeOff (cells M) h h'

/-- While lines are moved, `M` holds the lines `y` and the buffer the line `b`. -/
structure Moving (M buf : V) (h₀ h₁ : Heap α) (y : ℕ → ℕ → F) (b : ℕ → F) (h : Heap α) :
    Prop where
  holds : Holds M h (table y)
  saved : Holds buf h (table fun _ => b)
  agreeOff : AgreeOff (cells M ∪ {p | p.blk = h₀.blocks.size}) h₁ h
  shape_eq : h.shape = h₁.shape

variable {copy count width table} {buf : V} {h₀ h₁ : Heap α} {y y' : ℕ → ℕ → F} {b b' : ℕ → F}
  {p : Prog (Heap α) Unit}

theorem Moving.write (hmoving : Moving table M buf h₀ h₁ y b h)
    (hdisj : Disjoint (cells M) (cells buf)) (hp : KeepsShape p)
    (hends : Ends p h fun _ h' => Holds M h' (table y') ∧ AgreeOff (cells M) h h') :
    Ends p h fun _ => Moving table M buf h₀ h₁ y' b := by
  apply (hends.keeps (hp h₁.shape) hmoving.shape_eq).mono
  rintro _ h' ⟨⟨hholds, hagree⟩, hshape⟩
  exact ⟨hholds, holds_agreeOff hmoving.saved hagree hdisj,
    hmoving.agreeOff.trans (hagree.mono Set.subset_union_left), hshape⟩

theorem Moving.save (hmoving : Moving table M buf h₀ h₁ y b h)
    (hdisj : Disjoint (cells buf) (cells M)) (hbuf : cells buf ⊆ {p | p.blk = h₀.blocks.size})
    (hp : KeepsShape p) (hends : Ends p h fun _ h' =>
      Holds buf h' (table fun _ => b') ∧ AgreeOff (cells buf) h h') :
    Ends p h fun _ => Moving table M buf h₀ h₁ y b' := by
  apply (hends.keeps (hp h₁.shape) hmoving.shape_eq).mono
  rintro _ h' ⟨⟨hholds, hagree⟩, hshape⟩
  exact ⟨holds_agreeOff hmoving.holds hagree hdisj, hholds,
    hmoving.agreeOff.trans (hagree.mono (hbuf.trans Set.subset_union_right)), hshape⟩

/-- Copying between the view and a buffer of one line moves lines. -/
theorem CopiesLines.lineMoves (hcopy : CopiesLines copy count width table)
    (hdisj : Disjoint (cells buf) (cells M)) (hbuf : cells buf ⊆ {p | p.blk = h₀.blocks.size})
    (hcount : count buf = 1) (hwidth : width buf = width M) :
    LineMoves (count M) (fun i => copy M i buf 0) (fun e => copy buf 0 M e)
      (fun eNext e => copy M eNext M e) (Moving table M buf h₀ h₁) := by
  constructor
  case save_ends =>
    intro y b g i hi hR
    apply hR.save hdisj hbuf (hcopy.keeps _ _ _ _)
    apply (hcopy.ends hR.saved hR.holds (Or.inr hdisj) hwidth.symm hi (by omega)).mono
    rintro _ g' ⟨hholds, hagree⟩
    refine ⟨hcopy.congr hholds fun j hj => ?_, hagree⟩
    obtain rfl : j = 0 := by omega
    exact Function.update_self _ _ _
  case restore_ends =>
    intro y b g i hi hR
    apply hR.write hdisj.symm (hcopy.keeps _ _ _ _)
    exact hcopy.ends hR.holds hR.saved (Or.inr hdisj.symm) hwidth (by omega) hi
  case move_ends =>
    intro y b g i j hi hj hR
    apply hR.write hdisj.symm (hcopy.keeps _ _ _ _)
    exact hcopy.ends hR.holds hR.holds (Or.inl rfl) rfl hi hj

/-- Permuting lines with a local buffer of one line. -/
theorem CopiesLines.permute_ends (hcopy : CopiesLines copy count width table)
    (hy : Holds M h (table y)) {n m : ℕ} (hlocal : Ends (localView n m : Prog (Heap α) V) h
      fun buf h' => count buf = 1 ∧ width buf = width M ∧
        cells buf ⊆ {p | p.blk = h.blocks.size} ∧ (∃ z, Holds buf h' (table z)) ∧
          ∃ block, h' = h.withBlock block)
    (hlt : ∀ k, π k < count M ↔ k < count M) (hperm : ∀ k < count M, perm[k]? = some (π k)) :
    Ends (do
      let buf ← (localView n m : Prog (Heap α) V)
      let _ ← permuteLines (count M) (fun i => copy M i buf 0) (fun e => copy buf 0 M e)
        (fun eNext e => copy M eNext M e) perm
      endLocal V) h fun _ h' =>
        Holds M h' (table fun i => y (π i)) ∧ AgreeOff (cells M) h h' := by
  apply hlocal.bind
  rintro buf h₁ ⟨hcount, hwidth, hbuf, ⟨z, hz⟩, block, rfl⟩
  have hdisj := disjoint_local hy hbuf
  have hstart : Moving table M buf h (h.withBlock block) y (z 0) (h.withBlock block) :=
    { holds := holds_withBlock hy block
      saved := hcopy.congr hz fun i hi => by
        obtain rfl : i = 0 := by omega
        rfl
      agreeOff := AgreeOff.refl _ _
      shape_eq := rfl }
  apply (permuteLines_ends (hcopy.lineMoves hdisj hbuf hcount hwidth) hlt hperm hstart).bind
  rintro _ h₂ ⟨y', b, hy', hR⟩
  rw [endLocal_eq, ends_release]
  refine ⟨hcopy.congr (holds_dropBlock hy hR.holds hR.shape_eq) fun i hi => ?_,
    agreeOff_dropBlock hR.agreeOff hR.shape_eq⟩
  rw [hy' i, if_pos hi]

theorem copiesLines_rows : CopiesLines (V := V) copyRow nRow nCol (fun y => y) where
  keeps := copyRow_keeps
  congr := fun hy heq => holds_congr hy fun r hr c _ => by rw [heq r hr]
  ends := fun hy hz hapart hwidth hi hj => by
    apply (copyRow_ends hy hz hapart hwidth hi hj).mono
    rintro _ h' ⟨hholds, hagree⟩
    refine ⟨holds_congr hholds fun r _ c _ => ?_, hagree⟩
    rw [Table.copyRow, Function.update_apply]
    split_ifs <;> rfl

theorem copiesLines_cols : CopiesLines (V := V) copyCol nCol nRow (fun y i j => y j i) where
  keeps := copyCol_keeps
  congr := fun hy heq => holds_congr hy fun r _ c hc => by rw [heq c hc]
  ends := fun hy hz hapart hwidth hi hj => by
    apply (copyCol_ends hy hz hapart hwidth hi hj).mono
    rintro _ h' ⟨hholds, hagree⟩
    refine ⟨holds_congr hholds fun r _ c _ => ?_, hagree⟩
    rw [Table.copyCol, Function.update_apply]
    split_ifs <;> rfl

/-- Row `perm[i]` moves to row `i`. -/
theorem permuteRows_ends (hA : Holds M h A) (hlt : ∀ k, π k < nRow M ↔ k < nRow M)
    (hperm : ∀ k < nRow M, perm[k]? = some (π k)) :
    Ends (permuteRows M perm) h fun _ h' =>
      Holds M h' (fun i j => A (π i) j) ∧ AgreeOff (cells M) h h' := by
  rw [MvMatrix.permuteRows_eq]
  refine copiesLines_rows.permute_ends (y := A) hA ?_ hlt hperm
  apply (localView_ends (declarable_row hA) h).mono
  rintro buf h' ⟨hrow, hcol, hbuf, hB, hblock⟩
  exact ⟨hrow, hcol, hbuf, hB, hblock⟩

/-- Column `perm[j]` moves to column `j`. -/
theorem permuteCols_ends (hA : Holds M h A) (hlt : ∀ k, π k < nCol M ↔ k < nCol M)
    (hperm : ∀ k < nCol M, perm[k]? = some (π k)) :
    Ends (MvMatrix.permuteCols M perm) h fun _ h' =>
      Holds M h' (fun i j => A i (π j)) ∧ AgreeOff (cells M) h h' := by
  refine copiesLines_cols.permute_ends (y := fun j i => A i j) hA ?_ hlt hperm
  apply (localView_ends (declarable_col hA) h).mono
  rintro buf h' ⟨hrow, hcol, hbuf, ⟨B, hB⟩, hblock⟩
  exact ⟨hcol, hrow, hbuf, ⟨fun j i => B i j, hB⟩, hblock⟩

end Permute

/-! ## The rows at the top -/

/-- `T` consists of the first `n` rows of `M`. -/
structure TopView (M T : V) (n : ℕ) : Prop where
  nRow_eq : nRow T = n
  nCol_eq : nCol T = nCol M
  cells_subset : cells T ⊆ cells M
  holds : ∀ {g A}, Holds M g A → Holds T g A
  holds_of : ∀ {g g' A B}, Holds M g A → Holds T g' B → AgreeOff (cells T) g g' →
    (∀ r, n ≤ r → B r = A r) → Holds M g' B

theorem getTop_ends {n : ℕ} (hpos : 0 < nRow M) (hn : n ≤ nRow M) {Q : V → Heap α → Prop}
    (hQ : ∀ T, TopView M T n → Q T h) : Ends (getSubview M 0 0 n (nCol M)) h Q := by
  apply (topView_ends hpos hn).mono
  rintro T h' ⟨rfl, hrow, hcol, hsub, hholds, hof⟩
  exact hQ T ⟨hrow, hcol, hsub, hholds, hof⟩

/-- Permuting the rows at the top. -/
theorem TopView.permuteRows_ends {T : V} {n : ℕ} (hT : TopView M T n) (hA : Holds M h A)
    (hlt : ∀ k, π k < n ↔ k < n) (hperm : ∀ k < n, perm[k]? = some (π k)) :
    Ends (permuteRows T perm) h fun _ h' =>
      Holds M h' (fun i c => if i < n then A (π i) c else A i c) ∧ AgreeOff (cells M) h h' := by
  have hrow := hT.nRow_eq
  apply (HeapView.permuteRows_ends (hT.holds hA) (by rwa [hrow]) (by rwa [hrow])).mono
  rintro _ h' ⟨hB, hagree⟩
  refine ⟨hT.holds_of hA (holds_congr hB fun i hi c _ => ?_) hagree fun i hi => ?_,
    hagree.mono hT.cells_subset⟩
  · exact (if_pos (hrow ▸ hi)).symm
  · funext c
    exact if_neg (not_lt.mpr hi)

end HeapView

end TvRQ
