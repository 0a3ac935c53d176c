/-
# Two kinds of views side by side

One matrix is held by two views of different kinds, with the entries of one
mapped to those of the other by a homomorphism of fields.  Every operation
keeps this when it is run on both, and so do the functions that are built from
the operations, as they take the same way through the same loops.
-/

import TvRQ.Algebra.MvSolve
import TvRQ.Lib.Simulation

namespace TvRQ

open Imperative Heap MvGen MvGenAll

/-- Two programs that start with the same placement. -/
theorem Places.both_placement {placements : Option (Array ℕ)} {n : ℕ} {pl : ℕ → ℕ}
    {σ τ γ δ : Type} {g : σ × τ} {k : ℕ → Prog σ γ} {k' : ℕ → Prog τ δ}
    {Q : γ → δ → σ × τ → Prop} (hpl : Places placements n pl) {i : ℕ} (hi : i < n) :
    Both (placement placements i >>= k) (placement placements i >>= k') g Q ↔
      Both (k (pl i)) (k' (pl i)) g Q := by
  cases placements with
  | some xs => exact both_readArray (hpl i hi)
  | none =>
      have hget : i = pl i := hpl i hi
      rw [placement, placement, pure_bind, pure_bind, ← hget]

namespace HeapView

variable {V α E F : Type} [Field F] [Zero E] [One E] [MvGenAll V (Heap α) E] [HeapView V α E F]
  {W β G K : Type} [Field K] [Zero G] [One G] [MvGenAll W (Heap β) G] [HeapView W β G K]

/-- Both views hold `A`, the second one through `f`. -/
structure Twin (f : F →+* K) (x : V × W) (g : Heap α × Heap β) (A : Table F) : Prop where
  nRow_eq : nRow x.2 = nRow x.1
  nCol_eq : nCol x.2 = nCol x.1
  left : Holds x.1 g.1 A
  right : Holds x.2 g.2 (A.map f)

/-- The views of `x` hold `A` after a change that is confined to them. -/
structure Becomes (f : F →+* K) (x : V × W) (g : Heap α × Heap β) (A : Table F)
    (g' : Heap α × Heap β) : Prop where
  twin : Twin f x g' A
  left : AgreeOff (cells x.1) g.1 g'.1
  right : AgreeOff (cells x.2) g.2 g'.2

/-- The views of `x` hold one table after a change that is confined to them. -/
def Changed (f : F →+* K) (x : V × W) (g g' : Heap α × Heap β) : Prop :=
  ∃ A, Becomes f x g A g'

/-- The pairs of views are disjoint. -/
def ApartTwins (x y : V × W) : Prop :=
  Disjoint (cells x.1) (cells y.1) ∧ Disjoint (cells x.2) (cells y.2)

variable {f : F →+* K} {x y z LU : V × W} {g g' g'' : Heap α × Heap β} {A B S : Table F}
  {p : Prog (Heap α) Unit} {q : Prog (Heap β) Unit}

theorem Twin.changed (hA : Twin f x g A) : Changed f x g g :=
  ⟨A, hA, AgreeOff.refl _ _, AgreeOff.refl _ _⟩

theorem Becomes.changed (h : Becomes f x g A g') : Changed f x g g' := ⟨A, h⟩

theorem changed_of_both (h : Both p q g fun _ _ => Becomes f x g A) :
    Both p q g fun _ _ => Changed f x g := by
  apply h.mono
  intro _ _ g' h'
  exact h'.changed

theorem Changed.trans (h : Changed f x g g') (h' : Changed f x g' g'') : Changed f x g g'' := by
  obtain ⟨A, -, hleft, hright⟩ := h
  obtain ⟨B, hB, hleft', hright'⟩ := h'
  exact ⟨B, hB, hleft.trans hleft', hright.trans hright'⟩

/-- Twins apart from a change keep their table. -/
theorem Changed.twin_apart (h : Changed f x g g') (hS : Twin f y g S) (hapart : ApartTwins x y) :
    Twin f y g' S := by
  obtain ⟨A, -, hleft, hright⟩ := h
  exact ⟨hS.nRow_eq, hS.nCol_eq, holds_agreeOff hS.left hleft hapart.1,
    holds_agreeOff hS.right hright hapart.2⟩

/-- Other twins, which may be those that change. -/
theorem Changed.twin (h : Changed f x g g') (hS : Twin f y g S) (hapart : y = x ∨ ApartTwins x y) :
    ∃ S', Twin f y g' S' := by
  rcases hapart with rfl | hapart
  · obtain ⟨A, hA, -⟩ := h
    exact ⟨A, hA⟩
  · exact ⟨S, h.twin_apart hS hapart⟩

/-- A change of the twins by what the laws of both kinds say. -/
theorem Twin.both (hA : Twin f x g A)
    (hp : Ends p g.1 fun _ h => Holds x.1 h B ∧ AgreeOff (cells x.1) g.1 h)
    (hq : Ends q g.2 fun _ h => Holds x.2 h (B.map f) ∧ AgreeOff (cells x.2) g.2 h) :
    Both p q g fun _ _ => Becomes f x g B :=
  Both.of_ends hp hq fun _ _ _ hp hq =>
    ⟨⟨hA.nRow_eq, hA.nCol_eq, hp.1, hq.1⟩, hp.2, hq.2⟩

/-- One more change of twins that have changed. -/
theorem Changed.next (h : Changed f x g g')
    (hboth : ∀ A, Twin f x g' A → Both p q g' fun _ _ => Changed f x g') :
    Both p q g' fun _ _ => Changed f x g := by
  obtain ⟨A, hA, -⟩ := id h
  apply (hboth A hA).mono
  intro _ _ g'' h'
  exact h.trans h'

/-! ## The operations -/

section Operations

variable {r r₁ r₂ c c₁ c₂ offs : ℕ}

theorem Twin.swapRows (hA : Twin f x g A) (h₁ : r₁ < nRow x.1) (h₂ : r₂ < nRow x.1) :
    Both (swapRows x.1 r₁ r₂) (swapRows x.2 r₁ r₂) g fun _ _ =>
      Becomes f x g (A.swapRows r₁ r₂) := by
  apply hA.both (swapRows_ends hA.left h₁ h₂)
  rw [Table.map_swapRows]
  exact swapRows_ends hA.right (h₁.trans_eq hA.nRow_eq.symm) (h₂.trans_eq hA.nRow_eq.symm)

theorem Twin.clearRow (hA : Twin f x g A) (hr : r < nRow x.1) :
    Both (clearRow x.1 r) (clearRow x.2 r) g fun _ _ => Becomes f x g (A.clearRow r) := by
  apply hA.both (clearRow_ends hA.left hr)
  rw [Table.map_clearRow]
  exact clearRow_ends hA.right (hr.trans_eq hA.nRow_eq.symm)

theorem Twin.multRow (hA : Twin f x g A) (hr : r < nRow x.1) (a : F) :
    Both (multRow x.1 r (el V a)) (multRow x.2 r (el W (f a))) g fun _ _ =>
      Becomes f x g (A.multRow r a) := by
  apply hA.both (multRow_ends hA.left hr a)
  rw [Table.map_multRow]
  exact multRow_ends hA.right (hr.trans_eq hA.nRow_eq.symm) (f a)

/-- Sources of an operation, which may be its target. -/
theorem apart_left (hapart : y = x ∨ ApartTwins x y) :
    y.1 = x.1 ∨ Disjoint (cells x.1) (cells y.1) :=
  hapart.imp (congrArg Prod.fst) And.left

theorem apart_right (hapart : y = x ∨ ApartTwins x y) :
    y.2 = x.2 ∨ Disjoint (cells x.2) (cells y.2) :=
  hapart.imp (congrArg Prod.snd) And.right

theorem Twin.multaddRow (hA : Twin f x g A) (hS : Twin f y g S) (hapart : y = x ∨ ApartTwins x y)
    (hcol : nCol y.1 = nCol x.1) (h₁ : r₁ < nRow y.1) (hr : r < nRow x.1) (a : F) :
    Both (multaddRow y.1 r₁ (el V a) x.1 r) (multaddRow y.2 r₁ (el W (f a)) x.2 r) g
      fun _ _ => Becomes f x g (Table.multaddRowFrom S r₁ 0 a A r) := by
  apply hA.both (multaddRow_ends hA.left hS.left (apart_left hapart) hcol h₁ hr a)
  rw [Table.map_multaddRowFrom]
  exact multaddRow_ends hA.right hS.right (apart_right hapart)
    (hS.nCol_eq.trans (hcol.trans hA.nCol_eq.symm)) (h₁.trans_eq hS.nRow_eq.symm)
    (hr.trans_eq hA.nRow_eq.symm) (f a)

theorem Twin.multaddRowFrom (hA : Twin f x g A) (hS : Twin f y g S)
    (hapart : y = x ∨ ApartTwins x y) (hcol : nCol y.1 = nCol x.1) (h₁ : r₁ < nRow y.1)
    (hr : r < nRow x.1) (hoffs : offs < nCol x.1) (a : F) :
    Both (multaddRowFrom y.1 r₁ offs (el V a) x.1 r)
      (multaddRowFrom y.2 r₁ offs (el W (f a)) x.2 r) g
      fun _ _ => Becomes f x g (Table.multaddRowFrom S r₁ offs a A r) := by
  apply hA.both (multaddRowFrom_ends hA.left hS.left (apart_left hapart) hcol h₁ hr hoffs a)
  rw [Table.map_multaddRowFrom]
  exact multaddRowFrom_ends hA.right hS.right (apart_right hapart)
    (hS.nCol_eq.trans (hcol.trans hA.nCol_eq.symm)) (h₁.trans_eq hS.nRow_eq.symm)
    (hr.trans_eq hA.nRow_eq.symm) (hoffs.trans_eq hA.nCol_eq.symm) (f a)

theorem Twin.copyRow (hA : Twin f x g A) (hS : Twin f y g S) (hapart : y = x ∨ ApartTwins x y)
    (hcol : nCol y.1 = nCol x.1) (h₁ : r₁ < nRow y.1) (hr : r < nRow x.1) :
    Both (copyRow y.1 r₁ x.1 r) (copyRow y.2 r₁ x.2 r) g
      fun _ _ => Becomes f x g (Table.copyRow S r₁ A r) := by
  apply hA.both (copyRow_ends hA.left hS.left (apart_left hapart) hcol h₁ hr)
  rw [Table.map_copyRow]
  exact copyRow_ends hA.right hS.right (apart_right hapart)
    (hS.nCol_eq.trans (hcol.trans hA.nCol_eq.symm)) (h₁.trans_eq hS.nRow_eq.symm)
    (hr.trans_eq hA.nRow_eq.symm)

theorem Twin.rowIszero (hA : Twin f x g A) (hr : r < nRow x.1) (hpos : 0 < nCol x.1) :
    Both (rowIszero x.1 r) (rowIszero x.2 r) g fun z₁ z₂ g' => z₁ = z₂ ∧ g' = g := by
  apply Both.of_ends (rowIszero_ends hA.left hr hpos)
    (rowIszero_ends hA.right (hr.trans_eq hA.nRow_eq.symm) (hpos.trans_eq hA.nCol_eq.symm))
  rintro z₁ z₂ ⟨h₁, h₂⟩ ⟨hz₁, rfl⟩ ⟨hz₂, rfl⟩
  refine ⟨Bool.eq_iff_iff.mpr (hz₁.trans (Iff.trans ?_ hz₂.symm)), rfl⟩
  rw [hA.nCol_eq]
  exact forall₂_congr fun c _ => (map_eq_zero f).symm

theorem Twin.swapCols (hA : Twin f x g A) (hpos : 0 < nRow x.1) (h₁ : c₁ < nCol x.1)
    (h₂ : c₂ < nCol x.1) :
    Both (swapCols x.1 c₁ c₂) (swapCols x.2 c₁ c₂) g fun _ _ =>
      Becomes f x g (A.swapCols c₁ c₂) := by
  apply hA.both (swapCols_ends hA.left hpos h₁ h₂)
  rw [Table.map_swapCols]
  exact swapCols_ends hA.right (hpos.trans_eq hA.nRow_eq.symm) (h₁.trans_eq hA.nCol_eq.symm)
    (h₂.trans_eq hA.nCol_eq.symm)

theorem Twin.multColFrom (hA : Twin f x g A) (hc : c < nCol x.1) (hoffs : offs ≤ nRow x.1)
    (a : F) :
    Both (multColFrom x.1 c offs (el V a)) (multColFrom x.2 c offs (el W (f a))) g fun _ _ =>
      Becomes f x g (A.multColFrom c offs a) := by
  apply hA.both (multColFrom_ends hA.left hc hoffs a)
  rw [Table.map_multColFrom]
  exact multColFrom_ends hA.right (hc.trans_eq hA.nCol_eq.symm)
    (hoffs.trans_eq hA.nRow_eq.symm) (f a)

theorem Twin.copyCol (hA : Twin f x g A) (hS : Twin f y g S) (hapart : y = x ∨ ApartTwins x y)
    (hrow : nRow y.1 = nRow x.1) (h₁ : c₁ < nCol y.1) (hc : c < nCol x.1) :
    Both (copyCol y.1 c₁ x.1 c) (copyCol y.2 c₁ x.2 c) g
      fun _ _ => Becomes f x g (Table.copyCol S c₁ A c) := by
  apply hA.both (copyCol_ends hA.left hS.left (apart_left hapart) hrow h₁ hc)
  rw [Table.map_copyCol]
  exact copyCol_ends hA.right hS.right (apart_right hapart)
    (hS.nRow_eq.trans (hrow.trans hA.nRow_eq.symm)) (h₁.trans_eq hS.nCol_eq.symm)
    (hc.trans_eq hA.nCol_eq.symm)

theorem Twin.setEl (hA : Twin f x g A) (hr : r < nRow x.1) (hc : c < nCol x.1) (v : F) :
    Both (setEl x.1 r c (el V v)) (setEl x.2 r c (el W (f v))) g fun _ _ =>
      Becomes f x g (A.set r c v) := by
  apply hA.both (setEl_ends hA.left hr hc v)
  rw [Table.map_set]
  exact setEl_ends hA.right (hr.trans_eq hA.nRow_eq.symm) (hc.trans_eq hA.nCol_eq.symm) (f v)

/-- Reading an entry. -/
theorem Twin.getEl (hA : Twin f x g A) (hr : r < nRow x.1) (hc : c < nCol x.1) {γ δ : Type}
    {k : E → Prog (Heap α) γ} {k' : G → Prog (Heap β) δ} {Q : γ → δ → Heap α × Heap β → Prop}
    (h : Both (k (el V (A r c))) (k' (el W (f (A r c)))) g Q) :
    Both (getEl x.1 r c >>= k) (getEl x.2 r c >>= k') g Q := by
  rw [Both, ends_bind, getEl_iff hA.left hr hc]
  apply Ends.mono h
  intro a s h'
  rw [ends_bind, getEl_iff hA.right (hr.trans_eq hA.nRow_eq.symm) (hc.trans_eq hA.nCol_eq.symm)]
  exact h'

/-! One more row operation on twins that have changed. -/

theorem Changed.clearRow (h : Changed f x g g') (hr : r < nRow x.1) :
    Both (MvGen.clearRow x.1 r) (MvGen.clearRow x.2 r) g' fun _ _ => Changed f x g :=
  h.next fun _ hA => changed_of_both (hA.clearRow hr)

theorem Changed.multRow (h : Changed f x g g') (hr : r < nRow x.1) (a : F) :
    Both (MvGen.multRow x.1 r (el V a)) (MvGen.multRow x.2 r (el W (f a))) g'
      fun _ _ => Changed f x g :=
  h.next fun _ hA => changed_of_both (hA.multRow hr a)

theorem Changed.copyRow (h : Changed f x g g') (hS : Twin f y g S)
    (hapart : y = x ∨ ApartTwins x y) (hcol : nCol y.1 = nCol x.1) (h₁ : r₁ < nRow y.1)
    (hr : r < nRow x.1) :
    Both (MvGen.copyRow y.1 r₁ x.1 r) (MvGen.copyRow y.2 r₁ x.2 r) g'
      fun _ _ => Changed f x g := by
  obtain ⟨S', hS'⟩ := h.twin hS hapart
  exact h.next fun _ hA => changed_of_both (hA.copyRow hS' hapart hcol h₁ hr)

theorem Changed.multaddRow (h : Changed f x g g') (hS : Twin f y g S)
    (hapart : y = x ∨ ApartTwins x y) (hcol : nCol y.1 = nCol x.1) (h₁ : r₁ < nRow y.1)
    (hr : r < nRow x.1) (a : F) :
    Both (MvGen.multaddRow y.1 r₁ (el V a) x.1 r) (MvGen.multaddRow y.2 r₁ (el W (f a)) x.2 r) g'
      fun _ _ => Changed f x g := by
  obtain ⟨S', hS'⟩ := h.twin hS hapart
  exact h.next fun _ hA => changed_of_both (hA.multaddRow hS' hapart hcol h₁ hr a)

/-- Adding a row of the matrix to another one or to itself. -/
theorem Changed.addOwnRow (h : Changed f x g g') (h₁ : r₁ < nRow x.1) (hr : r < nRow x.1) (a : F) :
    Both (MvGen.multaddRow x.1 r₁ (el V a) x.1 r) (MvGen.multaddRow x.2 r₁ (el W (f a)) x.2 r) g'
      fun _ _ => Changed f x g :=
  h.next fun _ hA => changed_of_both (hA.multaddRow hA (Or.inl rfl) rfl h₁ hr a)

end Operations

/-! ## Sums and products -/

section Functions

variable {T : Table F}

theorem Twin.clear (hA : Twin f x g A) :
    Both (clear x.1) (clear x.2) g fun _ _ => Changed f x g := by
  unfold MvGen.clear
  rw [hA.nRow_eq]
  exact Both.forRange (fun i _ hi g' h => h.clearRow hi) hA.changed

theorem Twin.iszero (hA : Twin f x g A) (hpos : 0 < nCol x.1) :
    Both (MvMatrix.iszero x.1) (MvMatrix.iszero x.2) g fun z₁ z₂ g' => z₁ = z₂ ∧ g' = g := by
  apply Both.of_ends (iszero_ends hA.left hpos)
    (iszero_ends hA.right (hpos.trans_eq hA.nCol_eq.symm))
  rintro z₁ z₂ ⟨h₁, h₂⟩ ⟨hz₁, rfl⟩ ⟨hz₂, rfl⟩
  refine ⟨Bool.eq_iff_iff.mpr (hz₁.trans (Iff.trans ?_ hz₂.symm)), rfl⟩
  rw [hA.nRow_eq, hA.nCol_eq]
  exact forall₂_congr fun r _ => forall₂_congr fun c _ => (map_eq_zero f).symm

/-- Permuting rows is done in the same way by both. -/
theorem Twin.permuteRows {perm : Array ℕ} {π : Equiv.Perm ℕ} (hA : Twin f x g A)
    (hlt : ∀ k, π k < nRow x.1 ↔ k < nRow x.1) (hperm : ∀ k < nRow x.1, perm[k]? = some (π k)) :
    Both (permuteRows x.1 perm) (permuteRows x.2 perm) g fun _ _ =>
      Becomes f x g fun i j => A (π i) j :=
  hA.both (permuteRows_ends hA.left hlt hperm)
    (permuteRows_ends hA.right (by rwa [hA.nRow_eq]) (by rwa [hA.nRow_eq]))

theorem Twin.permuteCols {perm : Array ℕ} {π : Equiv.Perm ℕ} (hA : Twin f x g A)
    (hlt : ∀ k, π k < nCol x.1 ↔ k < nCol x.1) (hperm : ∀ k < nCol x.1, perm[k]? = some (π k)) :
    Both (MvMatrix.permuteCols x.1 perm) (MvMatrix.permuteCols x.2 perm) g fun _ _ =>
      Becomes f x g fun i j => A i (π j) :=
  hA.both (permuteCols_ends hA.left hlt hperm)
    (permuteCols_ends hA.right (by rwa [hA.nCol_eq]) (by rwa [hA.nCol_eq]))

theorem Twin.copy (hA : Twin f x g A) (hS : Twin f y g S) (hapart : y = x ∨ ApartTwins x y)
    (hrow : nRow y.1 = nRow x.1) (hcol : nCol y.1 = nCol x.1) :
    Both (MvMatrix.copy y.1 x.1) (MvMatrix.copy y.2 x.2) g fun _ _ => Changed f x g := by
  unfold MvMatrix.copy
  rw [hS.nRow_eq, hS.nCol_eq, hA.nRow_eq, hA.nCol_eq, both_ensure hrow hrow,
    both_ensure hcol hcol]
  refine Both.forRange (fun i _ hi g' h => ?_) hA.changed
  exact h.copyRow hS hapart hcol hi (hi.trans_eq hrow)

theorem Twin.addInplace (hA : Twin f x g A) (hS : Twin f y g S) (hapart : y = x ∨ ApartTwins x y)
    (hrow : nRow y.1 = nRow x.1) (hcol : nCol y.1 = nCol x.1) :
    Both (MvMatrix.addInplace y.1 x.1) (MvMatrix.addInplace y.2 x.2) g
      fun _ _ => Changed f x g := by
  unfold MvMatrix.addInplace
  rw [hS.nRow_eq, hS.nCol_eq, hA.nRow_eq, hA.nCol_eq, both_ensure hrow hrow,
    both_ensure hcol hcol]
  refine Both.forRange (fun i _ hi g' h => ?_) hA.changed
  have hadd := h.multaddRow hS hapart hcol (hi.trans_eq hrow.symm) hi 1
  rwa [map_one, el_one, el_one] at hadd

theorem Twin.add (hA : Twin f x g A) (hS : Twin f y g S) (hT : Twin f z g T)
    (hapart : y = x ∨ ApartTwins x y) (hapart' : z = x ∨ ApartTwins x z)
    (hrow : nRow y.1 = nRow z.1) (hcol : nCol y.1 = nCol z.1) (hrow' : nRow y.1 = nRow x.1)
    (hcol' : nCol y.1 = nCol x.1) :
    Both (MvMatrix.add y.1 z.1 x.1) (MvMatrix.add y.2 z.2 x.2) g fun _ _ => Changed f x g := by
  unfold MvMatrix.add
  rw [hS.nRow_eq, hS.nCol_eq, hT.nRow_eq, hT.nCol_eq, hA.nRow_eq, hA.nCol_eq,
    both_ensure hrow hrow, both_ensure hcol hcol, both_ensure hrow' hrow', both_ensure hcol' hcol']
  refine Both.forRange (fun i _ hi g' h => ?_) hA.changed
  have hix := hi.trans_eq hrow'
  apply (h.copyRow hS hapart hcol' hi hix).bind
  intro _ _ g'' h'
  have hadd := h'.multaddRow hT hapart' (hcol.symm.trans hcol') (hi.trans_eq hrow) hix 1
  rwa [map_one, el_one, el_one] at hadd

theorem Twin.mulEntry (hS : Twin f y g S) (hT : Twin f z g T) (hdim : nCol y.1 = nRow z.1)
    {i j : ℕ} (hi : i < nRow y.1) (hj : j < nCol z.1) :
    Both (MvMatrix.mulEntry y.1 z.1 i j) (MvMatrix.mulEntry y.2 z.2 i j) g fun a b g' =>
      (∃ v, a = el V v ∧ b = el W (f v)) ∧ g' = g := by
  unfold MvMatrix.mulEntry
  rw [hS.nCol_eq]
  refine Both.foldRange (I := fun a b g' => (∃ v, a = el V v ∧ b = el W (f v)) ∧ g' = g)
    (fun e _ he a b g' h => ?_) ⟨⟨0, el_zero.symm, by rw [map_zero, el_zero]⟩, rfl⟩
  obtain ⟨⟨v, rfl, rfl⟩, rfl⟩ := h
  apply hS.getEl hi he
  apply hT.getEl (he.trans_eq hdim) hj
  rw [fmul_eq, fmul_eq, both_embed, both_pure]
  exact ⟨⟨_, fadd_eq _ _, by rw [fadd_eq, map_add, map_mul]⟩, rfl⟩

theorem Twin.mul (hA : Twin f x g A) (hS : Twin f y g S) (hT : Twin f z g T)
    (hapart : y = x ∨ ApartTwins x y) (hapart' : z = x ∨ ApartTwins x z)
    (hdim : nCol y.1 = nRow z.1) (hrow : nRow y.1 = nRow x.1) (hcol : nCol z.1 = nCol x.1) :
    Both (MvMatrix.mul y.1 z.1 x.1) (MvMatrix.mul y.2 z.2 x.2) g fun _ _ => Changed f x g := by
  unfold MvMatrix.mul
  rw [hS.nRow_eq, hS.nCol_eq, hT.nRow_eq, hT.nCol_eq, hA.nRow_eq, hA.nCol_eq,
    both_ensure hdim hdim, both_ensure hrow hrow, both_ensure hcol hcol]
  refine Both.forRange (fun i _ hi g' h => ?_) hA.changed
  refine Both.forRange (fun j _ hj g' h => ?_) h
  obtain ⟨S', hS'⟩ := h.twin hS hapart
  obtain ⟨T', hT'⟩ := h.twin hT hapart'
  apply (hS'.mulEntry hT' hdim (hi.trans_eq hrow.symm) (hj.trans_eq hcol.symm)).bind
  rintro a b g'' ⟨⟨v, rfl, rfl⟩, rfl⟩
  refine h.next fun B hB => ?_
  exact changed_of_both (hB.setEl hi hj v)

end Functions

/-! ## The factors -/

section Factors

variable {rp cp : Array ℕ} {r : ℤ} {m n i : ℕ}

/-- The first `n` entries of the array are indices below `bound`. -/
def InBounds (xs : Array ℕ) (n bound : ℕ) : Prop := ∀ k < n, ∃ v < bound, xs[k]? = some v

/-- Adding a multiple of another row, with an entry of the factors. -/
theorem Changed.addRow (h : Changed f x g g') (hLU : Twin f LU g B)
    (hapartLU : LU = x ∨ ApartTwins x LU) (hS : Twin f y g S) (hapart : y = x ∨ ApartTwins x y)
    (hcol : nCol y.1 = nCol x.1) {i j s t : ℕ} (hi : i < nRow LU.1) (hj : j < nCol LU.1)
    (hs : s < nRow y.1) (ht : t < nRow x.1) :
    Both (do
        let a ← MvGen.getEl LU.1 i j
        MvGen.multaddRow y.1 s a x.1 t) (do
        let a ← MvGen.getEl LU.2 i j
        MvGen.multaddRow y.2 s a x.2 t) g' fun _ _ => Changed f x g := by
  obtain ⟨B', hB'⟩ := h.twin hLU hapartLU
  apply hB'.getEl hi hj
  exact h.multaddRow hS hapart hcol hs ht _

theorem Twin.luMult (hA : Twin f x g A) (hLU : Twin f LU g B) (hS : Twin f y g S)
    (hapartLU : LU = x ∨ ApartTwins x LU) (hapart : y = x ∨ ApartTwins x y)
    (hdim : nCol LU.1 = nRow y.1) (hrow : nRow LU.1 = nRow x.1) (hcol : nCol y.1 = nCol x.1)
    (hrp : InBounds rp (nRow LU.1) (nRow x.1)) (hcp : InBounds cp (nCol LU.1) (nRow y.1)) :
    Both (MvMatrix.luMult LU.1 rp cp y.1 x.1) (MvMatrix.luMult LU.2 rp cp y.2 x.2) g
      fun _ _ => Changed f x g := by
  unfold MvMatrix.luMult
  rw [hLU.nRow_eq, hLU.nCol_eq, hS.nRow_eq, hS.nCol_eq, hA.nRow_eq, hA.nCol_eq,
    both_ensure hdim hdim, both_ensure hrow hrow, both_ensure hcol hcol]
  have hclear := hA.clear
  unfold MvGen.clear at hclear
  rw [hA.nRow_eq] at hclear
  apply hclear.bind
  intro _ _ g₁ h₁
  refine Both.bind (Both.forRange (fun i _ hi g' h => ?_) h₁) fun _ _ g₂ h₂ => ?_
  · obtain ⟨t, ht, hrt⟩ := hrp i hi
    rw [both_readArray hrt]
    refine Both.forDown (fun j _ hj g'' h' => ?_) h
    obtain ⟨c, hc, hcj⟩ := hcp j hj
    rw [both_readArray hcj]
    exact h'.addRow hLU hapartLU hS hapart hcol hi hj hc ht
  · refine Both.forDown (fun i _ hi g' h => ?_) h₂
    refine Both.forDown (fun j _ hj g'' h' => ?_) h
    have hjc : j < nCol LU.1 := by split_ifs at hj <;> omega
    have hjr : j < nRow LU.1 := by split_ifs at hj <;> omega
    obtain ⟨s, hs, hrs⟩ := hrp j hjr
    obtain ⟨t, ht, hrt⟩ := hrp i hi
    rw [both_readArray hrs]
    obtain ⟨B', hB'⟩ := h'.twin hLU hapartLU
    apply hB'.getEl hi hjc
    rw [both_readArray hrt]
    exact h'.addOwnRow hs ht _

theorem Changed.uMultInplace (h : Changed f x g g') (hLU : Twin f LU g B)
    (hapart : LU = x ∨ ApartTwins x LU) (hcol : nCol LU.1 ≤ nRow x.1) :
    Both (MvMatrix.uMultInplace LU.1 x.1) (MvMatrix.uMultInplace LU.2 x.2) g'
      fun _ _ => Changed f x g := by
  unfold MvMatrix.uMultInplace
  rw [hLU.nRow_eq, hLU.nCol_eq]
  refine Both.forRange (fun i _ hi g₁ h₁ => ?_) h
  obtain ⟨hic, hir⟩ := lt_min_iff.mp hi
  have hix := hic.trans_le hcol
  obtain ⟨B₁, hB₁⟩ := h₁.twin hLU hapart
  refine hB₁.getEl hir hic ?_
  refine (h₁.multRow hix _).bind fun _ _ g₂ h₂ => Both.forRange (fun j _ hj g₃ h₃ => ?_) h₂
  obtain ⟨B₃, hB₃⟩ := h₃.twin hLU hapart
  exact hB₃.getEl hir hj (h₃.addOwnRow (hj.trans_le hcol) hix _)

theorem Changed.lMultInplace (h : Changed f x g g') (hLU : Twin f LU g B)
    (hapart : LU = x ∨ ApartTwins x LU) (hrow : nRow LU.1 ≤ nRow x.1) :
    Both (MvMatrix.lMultInplace LU.1 x.1) (MvMatrix.lMultInplace LU.2 x.2) g'
      fun _ _ => Changed f x g := by
  have hpass : ∀ {i m g₁}, i < nRow LU.1 → m ≤ nCol LU.1 → m ≤ i → Changed f x g g₁ →
      Both (forDown 0 m fun j => do
          let a ← MvGen.getEl LU.1 i j
          MvGen.multaddRow x.1 j a x.1 i) (forDown 0 m fun j => do
          let a ← MvGen.getEl LU.2 i j
          MvGen.multaddRow x.2 j a x.2 i) g₁ fun _ _ => Changed f x g := by
    intro i m g₁ hi hm hmi h₁
    refine Both.forDown (fun j _ hj g₂ h₂ => ?_) h₁
    obtain ⟨B₂, hB₂⟩ := h₂.twin hLU hapart
    have hix := hi.trans_le hrow
    have hjx : j < nRow x.1 := (hj.trans_le hmi).trans hix
    exact hB₂.getEl hi (hj.trans_le hm) (h₂.addOwnRow hjx hix _)
  unfold MvMatrix.lMultInplace
  rw [hLU.nRow_eq, hLU.nCol_eq]
  refine Both.forDown (fun i _ hi g₁ h₁ => ?_) h
  split_ifs with him
  · exact (h₁.clearRow (hi.trans_le hrow)).bind fun _ _ g₂ h₂ => hpass hi le_rfl him h₂
  · exact hpass hi (not_le.mp him).le le_rfl h₁

/-- Both substitutions apply in the same way to both kinds of views. -/
theorem Changed.lInvmultInplaceP {placements : Option (Array ℕ)} {pl : ℕ → ℕ} {rank : ℕ}
    (h : Changed f x g g') (hLU : Twin f LU g B) (hapart : ApartTwins x LU)
    (hpl : Places placements rank pl) (hlt : ∀ k < rank, pl k < nRow x.1)
    (hrow : rank ≤ nRow LU.1) (hcol : rank ≤ nCol LU.1) :
    Both (lInvmultInplaceP LU.1 rank x.1 placements) (lInvmultInplaceP LU.2 rank x.2 placements)
      g' fun _ _ => Changed f x g := by
  unfold MvGen.lInvmultInplaceP
  refine Both.forRange (fun i _ hi g₁ h₁ => ?_) h
  rw [hpl.both_placement hi]
  refine Both.forRange (fun j _ hj g₂ h₂ => ?_) h₁
  have hjr := hj.trans hi
  rw [hpl.both_placement hjr]
  apply (h₂.twin_apart hLU hapart).getEl (hi.trans_le hrow) (hjr.trans_le hcol)
  exact h₂.addOwnRow (hlt j hjr) (hlt i hi) _

theorem Changed.uInvmultInplaceP {placements : Option (Array ℕ)} {pl : ℕ → ℕ} {rank : ℕ}
    (h : Changed f x g g') (hLU : Twin f LU g B) (hapart : ApartTwins x LU)
    (hpl : Places placements (nCol LU.1) pl) (hlt : ∀ k < nCol LU.1, pl k < nRow x.1)
    (hrow : rank ≤ nRow LU.1) (hcol : rank ≤ nCol LU.1) (hdiag : ∀ k < rank, B k k ≠ 0) :
    Both (uInvmultInplaceP LU.1 rank x.1 placements) (uInvmultInplaceP LU.2 rank x.2 placements)
      g' fun _ _ => Changed f x g := by
  unfold MvGen.uInvmultInplaceP
  rw [hLU.nCol_eq]
  refine Both.forDown (fun i _ hi g₁ h₁ => ?_) h
  have hic := hi.trans_le hcol
  rw [hpl.both_placement hic]
  refine Both.bind (Both.forRange (fun j _ hj g₂ h₂ => ?_) h₁) fun _ _ g₂ h₂ => ?_
  · rw [hpl.both_placement hj]
    apply (h₂.twin_apart hLU hapart).getEl (hi.trans_le hrow) hj
    exact h₂.addOwnRow (hlt j hj) (hlt i hic) _
  · apply (h₂.twin_apart hLU hapart).getEl (hi.trans_le hrow) hic
    rw [finv_eq (hdiag i hi), finv_eq (show f (B i i) ≠ 0 from (map_ne_zero f).mpr (hdiag i hi)),
      both_embed, ← map_inv₀]
    exact h₂.multRow (hlt i hic) _

theorem Twin.solveRank_eq (hLU : Twin f LU g B) : solveRank LU.2 r = solveRank LU.1 r := by
  rw [solveRank, solveRank, hLU.nRow_eq, hLU.nCol_eq]

theorem Twin.luInvmult (hA : Twin f x g A) (hLU : Twin f LU g B) (hS : Twin f y g S)
    (hapartLU : ApartTwins x LU) (hapart : y = x ∨ ApartTwins x y)
    (hdim : nCol LU.1 = nRow x.1) (hrow : nRow LU.1 = nRow y.1) (hcol : nCol x.1 = nCol y.1)
    (hrp : InBounds rp (nRow LU.1) (nRow y.1)) (hcp : InBounds cp (nCol LU.1) (nRow x.1))
    (hrankr : solveRank LU.1 r ≤ nRow LU.1) (hrankc : solveRank LU.1 r ≤ nCol LU.1)
    (hdiag : ∀ k < solveRank LU.1 r, B k k ≠ 0) :
    Both (MvMatrix.luInvmult LU.1 r rp cp y.1 x.1) (MvMatrix.luInvmult LU.2 r rp cp y.2 x.2) g
      fun _ _ => Changed f x g := by
  have hplace : ∃ pl : ℕ → ℕ, Places (some cp) (nCol LU.1) pl ∧
      ∀ k < nCol LU.1, pl k < nRow x.1 := by
    choose! pl hlt hget using hcp
    exact ⟨pl, hget, hlt⟩
  obtain ⟨pl, hpl, hlt⟩ := hplace
  unfold MvMatrix.luInvmult
  rw [hLU.solveRank_eq, hLU.nRow_eq, hLU.nCol_eq, hS.nRow_eq, hS.nCol_eq, hA.nRow_eq, hA.nCol_eq,
    both_ensure hdim hdim, both_ensure hrow hrow, both_ensure hcol hcol]
  refine Both.bind (Both.forRange (fun i _ hi g' h => ?_) hA.changed) fun _ _ g₁ h₁ => ?_
  · have hic := hi.trans_eq hdim.symm
    rw [both_readArray (hpl i hic)]
    exact h.clearRow (hlt i hic)
  refine Both.bind (Both.forRange (fun i _ hi g' h => ?_) h₁) fun _ _ g₂ h₂ => ?_
  · have hic := hi.trans_le hrankc
    obtain ⟨s, hs, hrs⟩ := hrp i (hi.trans_le hrankr)
    rw [both_readArray hrs, both_readArray (hpl i hic)]
    apply (h.copyRow hS hapart hcol.symm hs (hlt i hic)).bind
    intro _ _ g'' h'
    refine Both.forRange (fun j _ hj g₃ h₃ => ?_) h'
    have hjc := hj.trans hic
    rw [both_readArray (hpl j hjc)]
    apply (h₃.twin_apart hLU hapartLU).getEl (hi.trans_le hrankr) hjc
    exact h₃.addOwnRow (hlt j hjc) (hlt i hic) _
  · have hback := h₂.uInvmultInplaceP hLU hapartLU hpl hlt hrankr hrankc hdiag
    unfold MvGen.uInvmultInplaceP at hback
    rw [hLU.nCol_eq] at hback
    exact hback

/-! ## In place -/

/-- The views of `y` are the first `n` rows of those of `x`. -/
structure TopTwin (x y : V × W) (n : ℕ) : Prop where
  left : TopView x.1 y.1 n
  right : TopView x.2 y.2 n

theorem TopTwin.twin (hy : TopTwin x y n) (hA : Twin f x g A) : Twin f y g A where
  nRow_eq := hy.right.nRow_eq.trans hy.left.nRow_eq.symm
  nCol_eq := hy.right.nCol_eq.trans (hA.nCol_eq.trans hy.left.nCol_eq.symm)
  left := hy.left.holds hA.left
  right := hy.right.holds hA.right

theorem TopTwin.apart (hy : TopTwin x y n) (hapart : ApartTwins x LU) : ApartTwins y LU :=
  ⟨hapart.1.mono_left hy.left.cells_subset, hapart.2.mono_left hy.right.cells_subset⟩

/-- A change of the first rows is a change of the whole views. -/
theorem TopTwin.changed (hy : TopTwin x y n) (hA : Twin f x g A) (h : Changed f y g g') :
    Changed f x g g' := by
  obtain ⟨D, hD, hleft, hright⟩ := h
  let D' : Table F := fun i c => if i < n then D i c else A i c
  have hbelow : ∀ i, n ≤ i → D' i = A i := fun i hi => funext fun c => if_neg (not_lt.mpr hi)
  refine ⟨D', ⟨hA.nRow_eq, hA.nCol_eq, ?_, ?_⟩, hleft.mono hy.left.cells_subset,
    hright.mono hy.right.cells_subset⟩
  · refine hy.left.holds_of hA.left (holds_congr hD.left fun i hi c _ => ?_) hleft hbelow
    exact (if_pos (hi.trans_eq hy.left.nRow_eq)).symm
  · refine hy.right.holds_of hA.right (holds_congr hD.right fun i hi c _ => ?_) hright
      fun i hi => funext fun c => congrArg f (congrFun (hbelow i hi) c)
    exact congrArg f (if_pos (hi.trans_eq hy.right.nRow_eq)).symm

/-- Making the views of the first `n` rows. -/
theorem Twin.getTop (hA : Twin f x g A) (hpos : 0 < nRow x.1) (hn : n ≤ nRow x.1) {γ δ : Type}
    {k : V → Prog (Heap α) γ} {k' : W → Prog (Heap β) δ} {Q : γ → δ → Heap α × Heap β → Prop}
    (hQ : ∀ y : V × W, TopTwin x y n → Both (k y.1) (k' y.2) g Q) :
    Both (getSubview x.1 0 0 n (nCol x.1) >>= k) (getSubview x.2 0 0 n (nCol x.2) >>= k') g Q := by
  have hleft : Ends (getSubview x.1 0 0 n (nCol x.1)) g.1 fun T h => h = g.1 ∧ TopView x.1 T n :=
    getTop_ends hpos hn fun T hT => ⟨rfl, hT⟩
  have hright : Ends (getSubview x.2 0 0 n (nCol x.2)) g.2 fun T h => h = g.2 ∧ TopView x.2 T n :=
    getTop_ends (hpos.trans_eq hA.nRow_eq.symm) (hn.trans_eq hA.nRow_eq.symm)
      fun T hT => ⟨rfl, hT⟩
  refine Both.bind (Both.of_ends hleft hright (Q := fun T₁ T₂ g' => g' = g ∧ TopTwin x (T₁, T₂) n)
    fun T₁ T₂ g' h₁ h₂ => ⟨Prod.ext h₁.1 h₂.1, h₁.2, h₂.2⟩) ?_
  rintro T₁ T₂ g' ⟨rfl, hT⟩
  exact hQ (T₁, T₂) hT

theorem TopTwin.permuteRowsOpt {perm : Option (Array ℕ)} {π : Equiv.Perm ℕ} (hy : TopTwin x y n)
    (h : Changed f x g g') (hperm : ListsOpt perm n π) :
    Both (permuteRowsOpt y.1 perm) (permuteRowsOpt y.2 perm) g' fun _ _ => Changed f x g := by
  refine h.next fun A hA => ?_
  have hboth := hA.both (B := fun i c => if i < n then A (π i) c else A i c)
    (hy.left.permuteRowsOpt_ends hA.left hperm) <| by
      apply (hy.right.permuteRowsOpt_ends hA.right hperm).mono
      rintro _ h' ⟨hholds, hagree⟩
      refine ⟨holds_congr hholds fun i _ c _ => ?_, hagree⟩
      exact (apply_ite f _ _ _).symm
  exact changed_of_both hboth

theorem Twin.luMultInplace {rp cp : Option (Array ℕ)} {π τ : Equiv.Perm ℕ} (hA : Twin f x g A)
    (hLU : Twin f LU g B) (hapart : LU = x ∨ ApartTwins x LU) (hpos : 0 < nRow x.1)
    (hcol : nCol LU.1 ≤ nRow x.1) (hrow : nRow LU.1 ≤ nRow x.1)
    (hrp : ListsOpt rp (nRow LU.1) π) (hcp : ListsOpt cp (nCol LU.1) τ) :
    Both (MvMatrix.luMultInplace LU.1 rp cp x.1) (MvMatrix.luMultInplace LU.2 rp cp x.2) g
      fun _ _ => Changed f x g := by
  unfold MvMatrix.luMultInplace
  rw [hLU.nRow_eq, hLU.nCol_eq, hA.nRow_eq, both_ensure hcol hcol, both_ensure hrow hrow]
  refine hA.getTop hpos hcol fun y hy => hA.getTop hpos hrow fun z hz => ?_
  apply (hy.permuteRowsOpt hA.changed hcp).bind
  intro _ _ g₁ h₁
  apply (h₁.uMultInplace hLU hapart hcol).bind
  intro _ _ g₂ h₂
  apply (h₂.lMultInplace hLU hapart hrow).bind
  intro _ _ g₃ h₃
  exact hz.permuteRowsOpt h₃ hrp

theorem Twin.luInvmultInplace {rp cp : Option (Array ℕ)} {π τ : Equiv.Perm ℕ}
    (hA : Twin f x g A) (hLU : Twin f LU g B) (hapart : ApartTwins x LU) (hpos : 0 < nRow x.1)
    (hcol : nCol LU.1 ≤ nRow x.1) (hrow : nRow LU.1 ≤ nRow x.1)
    (hrp : ListsOpt rp (nRow LU.1) π) (hcp : ListsOpt cp (nCol LU.1) τ)
    (hrankr : solveRank LU.1 r ≤ nRow LU.1) (hrankc : solveRank LU.1 r ≤ nCol LU.1)
    (hdiag : ∀ k < solveRank LU.1 r, B k k ≠ 0) :
    Both (MvGen.luInvmultInplace LU.1 r rp cp x.1) (MvGen.luInvmultInplace LU.2 r rp cp x.2) g
      fun _ _ => Changed f x g := by
  unfold MvGen.luInvmultInplace
  rw [hLU.solveRank_eq, hLU.nRow_eq, hLU.nCol_eq, hA.nRow_eq, both_ensure hcol hcol,
    both_ensure hrow hrow]
  refine hA.getTop hpos hcol fun y hy => hA.getTop hpos hrow fun z hz => ?_
  apply (hz.permuteRowsOpt hA.changed hrp).bind
  intro _ _ g₁ h₁
  have hforward : Both (lInvmultInplace LU.1 (solveRank LU.1 r) z.1)
      (lInvmultInplace LU.2 (solveRank LU.1 r) z.2) g₁ fun _ _ => Changed f x g :=
    h₁.next fun A' hA' => (((hz.twin hA').changed.lInvmultInplaceP (h₁.twin_apart hLU hapart)
      (hz.apart hapart) (Places.none_id _)
      (fun k hk => (hk.trans_le hrankr).trans_eq hz.left.nRow_eq.symm) hrankr hrankc).mono
        fun _ _ _ h' => hz.changed hA' h')
  apply hforward.bind
  intro _ _ g₂ h₂
  have hback : Both (uInvmultInplace LU.1 (solveRank LU.1 r) y.1)
      (uInvmultInplace LU.2 (solveRank LU.1 r) y.2) g₂ fun _ _ => Changed f x g :=
    h₂.next fun A' hA' => (((hy.twin hA').changed.uInvmultInplaceP (h₂.twin_apart hLU hapart)
      (hy.apart hapart) (Places.none_id _)
      (fun k hk => hk.trans_eq hy.left.nRow_eq.symm) hrankr hrankc hdiag).mono
        fun _ _ _ h' => hy.changed hA' h')
  apply hback.bind
  intro _ _ g₃ h₃
  exact hy.permuteRowsOpt h₃ hcp

end Factors

end HeapView

end TvRQ
