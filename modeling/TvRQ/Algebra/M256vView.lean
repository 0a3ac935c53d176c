/-
# GF(256) views as owners of tables

The operations of `m256v.c` keep the laws of `HeapView`, so what is proved of
all kinds of views holds of them.  The permutations in place are exact for every
permutation, they can be undone, and they compose.
-/

import Mathlib.Data.Finset.Card
import TvRQ.Algebra.M256vSpec
import TvRQ.Algebra.MvView

namespace TvRQ

open Imperative Heap MvGen

namespace M256v

/-! ## Blocks stay in place -/

theorem keepsShape_getElOffs (M : M256v) (r c : ℕ) : KeepsShape (M.getElOffs r c) :=
  fun _ => Keeps.bind (Keeps.ensure _) fun _ => Keeps.bind (Keeps.ensure _) fun _ => Keeps.pure _

theorem keepsShape_getEl (M : M256v) (r c : ℕ) : KeepsShape (M.getEl r c) :=
  fun sizes => Keeps.bind (keepsShape_getElOffs M r c sizes) fun _ => keepsShape_load _ sizes

theorem keepsShape_setEl (M : M256v) (r c : ℕ) (v : UInt8) : KeepsShape (M.setEl r c v) :=
  fun sizes => Keeps.bind (keepsShape_getElOffs M r c sizes) fun _ => keepsShape_store _ _ sizes

theorem keepsShape_clearRow (M : M256v) (r : ℕ) : KeepsShape (M.clearRow r) :=
  fun sizes => Keeps.forRange fun _ _ _ => keepsShape_setEl M r _ 0 sizes

theorem keepsShape_copyRow (M₁ : M256v) (r₁ : ℕ) (M : M256v) (r : ℕ) :
    KeepsShape (copyRow M₁ r₁ M r) :=
  fun sizes => Keeps.bind (Keeps.ensure _) fun _ => Keeps.forRange fun _ _ _ =>
    Keeps.bind (keepsShape_getEl _ _ _ sizes) fun _ => keepsShape_setEl _ _ _ _ sizes

theorem keepsShape_copyCol (M₁ : M256v) (c₁ : ℕ) (M : M256v) (c : ℕ) :
    KeepsShape (copyCol M₁ c₁ M c) :=
  fun sizes => Keeps.bind (Keeps.ensure _) fun _ => Keeps.forRange fun _ _ _ =>
    Keeps.bind (keepsShape_getEl _ _ _ sizes) fun _ => keepsShape_setEl _ _ _ _ sizes

theorem keepsShape_getSubview (M : M256v) (rowOffs colOffs n m : ℕ) :
    KeepsShape (M.getSubview rowOffs colOffs n m) := by
  intro sizes
  refine Keeps.bind (Keeps.ensure _) fun _ => ?_
  split_ifs
  · exact Keeps.bind (keepsShape_getElOffs M _ _ sizes) fun _ => Keeps.pure _
  · exact Keeps.throw _

theorem keepsShape_clear (M : M256v) : KeepsShape (MvGen.clear M) :=
  fun sizes => Keeps.forRange fun _ _ _ => keepsShape_clearRow M _ sizes

theorem keepsShape_mul (A B out : M256v) : KeepsShape (MvMatrix.mul A B out) :=
  fun sizes => Keeps.bind (Keeps.ensure _) fun _ => Keeps.bind (Keeps.ensure _) fun _ =>
    Keeps.bind (Keeps.ensure _) fun _ => Keeps.forRange fun _ _ _ => Keeps.forRange fun _ _ _ =>
      Keeps.bind (Keeps.foldRange _ fun _ _ _ _ => Keeps.bind (keepsShape_getEl _ _ _ sizes)
        fun _ => Keeps.bind (keepsShape_getEl _ _ _ sizes) fun _ =>
          Keeps.bind (Keeps.embed _) fun _ => Keeps.pure _) fun _ => keepsShape_setEl _ _ _ _ sizes

/-- A row that is copied lies in allocated memory. -/
theorem copyRow_reads {M₁ M : M256v} {r₁ r c : ℕ} {h : Heap UInt8} {Q : Unit → Heap UInt8 → Prop}
    (hends : Ends (copyRow M₁ r₁ M r) h Q) (hc : c < M.nCol) :
    (M₁.cell r₁ c).off < h.blockSize (M₁.cell r₁ c).blk := by
  unfold copyRow at hends
  rw [ends_bind, ends_ensure] at hends
  obtain ⟨h', hshape, hbody⟩ := forRange_reaches (P := fun h' => h'.shape = h.shape) hends.2 rfl
    (fun _ _ _ => Keeps.bind (keepsShape_getEl _ _ _ _) fun _ => keepsShape_setEl _ _ _ _ _)
    (Nat.zero_le c) hc
  rw [ends_bind, ends_getEl] at hbody
  obtain ⟨-, -, v, hload, -⟩ := hbody
  rw [blockSize_eq, ← hshape, ← blockSize_eq, ← load_isSome, hload]
  rfl

/-! ## The laws -/

variable {M M₁ : M256v} {h : Heap UInt8} {A B : Table GF256}

/-- A row of the view itself or of a view apart from it can be copied or added. -/
theorem Holds.source {r₁ r : ℕ} (hB : M₁.Holds h B)
    (hapart : M₁ = M ∨ Disjoint M.cells M₁.cells) (hcol : M₁.nCol = M.nCol) (hr₁ : r₁ < M₁.nRow)
    (hr : r < M.nRow) : RowSource M₁ r₁ M r h B := by
  rcases hapart with rfl | hdisj
  · exact hB.source_self hr₁
  · exact hB.source_of_disjoint hcol hr₁ hr hdisj

instance : HeapView M256v UInt8 UInt8 GF256 where
  el := GF256.byte
  cells := cells
  Holds := Holds
  el_zero := rfl
  el_one := rfl
  fadd_eq := gf256Add_eq
  fmul_eq := gf256Mul_eq_ok
  finv_eq := gf256Inv_eq_ok
  holds_congr := Holds.congr
  holds_agreeOff := Holds.agreeOff
  allocated := fun hA hp => by
    obtain ⟨r, hr, c, hc, rfl⟩ := hp
    rw [hA.load hr hc]
    rfl
  getEl_iff := fun hA hr hc => hA.ends_getEl hr hc
  setEl_ends := fun hA hr hc v => (setEl_ends hA hr hc v).mono fun _ _ hpost =>
    ⟨hpost.1, hpost.2.mono (rowCells_subset hr)⟩
  swapRows_ends := swapRows_ends
  clearRow_ends := fun hA hr => (clearRow_ends hA hr).mono fun _ _ hpost =>
    ⟨hpost.1, hpost.2.mono (rowCells_subset hr)⟩
  multRow_ends := fun hA hr a => (multRow_ends hA hr a).mono fun _ _ hpost =>
    ⟨hpost.1, hpost.2.mono (rowCells_subset hr)⟩
  multaddRow_ends := fun hA hB hapart hcol hr₁ hr a =>
    (multaddRowFrom_ends hA hcol hr₁ hr (Nat.zero_le _) (hB.source hapart hcol hr₁ hr) a).mono
      fun _ _ hpost => ⟨hpost.1, hpost.2.mono (rowCells_subset hr)⟩
  multaddRowFrom_ends := fun hA hB hapart hcol hr₁ hr hoffs a =>
    (multaddRowFrom_ends hA hcol hr₁ hr hoffs.le (hB.source hapart hcol hr₁ hr) a).mono
      fun _ _ hpost => ⟨hpost.1, hpost.2.mono (rowCells_subset hr)⟩
  copyRow_ends := fun hA hB hapart hcol hr₁ hr =>
    (copyRow_ends hA hcol hr₁ hr (hB.source hapart hcol hr₁ hr)).mono
      fun _ _ hpost => ⟨hpost.1, hpost.2.mono (rowCells_subset hr)⟩
  rowIszero_ends := fun hA hr _ => rowIszero_ends hA hr
  swapCols_ends := swapCols_ends
  multColFrom_ends := fun hA hc hoffs a => multColFrom_ends hA hc hoffs a
  copyCol_ends := fun {M₁} _ _ _ _ _ _ hA hB hapart hrow hc₁ hc =>
    copyCol_ends hA hrow hc₁ hc fun i h₁ T hi hT hold hagree => by
      have hi₁ : i < M₁.nRow := hi.trans_eq hrow.symm
      rcases hapart with rfl | hdisj
      · rw [hT.load hi₁ hc₁, hold]
        exact congrArg some (GF256.ext_iff'.mp (hA.unique hB hi₁ hc₁))
      · exact (hB.agreeOff hagree hdisj).load hi₁ hc₁
  copyRow_keeps := keepsShape_copyRow
  copyCol_keeps := keepsShape_copyCol
  Declarable := fun _ _ => True
  declarable_row := fun _ => trivial
  declarable_col := fun _ => trivial
  localView_ends := fun _ h => by
    simp only [MvGen.localView, localView, ends_bind, ends_alloc, ends_pure]
    refine ⟨rfl, rfl, ?_, exists_holds_make ?_, _, rfl⟩
    · rintro p ⟨r, _, c, _, rfl⟩
      rfl
    · simp [blockSize]
  endLocal_eq := rfl
  topView_ends := fun {M _ n} hpos hn => by
    have hn' : 0 + n ≤ M.nRow := (Nat.zero_add n).symm ▸ hn
    apply (getSubview_ends (m := M.nCol) hpos hn' (Nat.zero_add _).le).mono
    rintro V h' ⟨hV, rfl⟩
    exact ⟨rfl, hV.nRow_eq, hV.nCol_eq, hV.cells_subset, hV.holds_top,
      fun hA hB hagree hbelow => hV.holds_of_top hA hB hagree hbelow⟩

/-! ## Local matrices -/

/-- A matrix in a block of its own, right after the block was reserved. -/
theorem holds_local (h : Heap UInt8) {n m : ℕ} {block : Array UInt8} (hsize : n * m ≤ block.size) :
    (make n m ⟨h.blocks.size, 0⟩).Holds (h.withBlock block) (rowMajor m block) :=
  holds_make (by simp [withBlock]) hsize

theorem Holds.disjoint_local (hA : M.Holds h A) (n m : ℕ) :
    Disjoint M.cells (make n m ⟨h.blocks.size, 0⟩).cells := by
  rw [Set.disjoint_left]
  rintro p ⟨r, hr, c, hc, rfl⟩ ⟨_, _, _, _, heq⟩
  exact (blk_lt_of_load (hA.load hr hc)).ne (congrArg Ptr.blk heq)

/-- A view keeps its table while a local matrix is written. -/
theorem Holds.of_local {h' : Heap UInt8} {n m : ℕ} {block : Array UInt8} (hA : M.Holds h A)
    (hagree : AgreeOff (make n m ⟨h.blocks.size, 0⟩).cells (h.withBlock block) h') :
    M.Holds h' A := by
  have hA' : M.Holds (h.withBlock block) A := HeapView.holds_withBlock (M := M) hA block
  exact hA'.agreeOff hagree (hA.disjoint_local n m).symm

end M256v

/-! ## Permutations given by arrays -/

section Arrays

variable {p q : Array ℕ} {n : ℕ}

/-- The array that lists `i ↦ p[q[i]]`. -/
def composePerm (p q : Array ℕ) : Array ℕ := q.map fun k => p.getD k 0

theorem getD_composePerm {i : ℕ} (hi : i < q.size) :
    (composePerm p q).getD i 0 = p.getD (q.getD i 0) 0 := by
  simp [composePerm, Array.getD_eq_getD_getElem?, Array.getElem?_eq_getElem hi]

theorem getD_of_getElem? {π : ℕ → ℕ} (hp : ∀ k < n, p[k]? = some (π k)) {k : ℕ} (hk : k < n) :
    p.getD k 0 = π k := by
  rw [Array.getD_eq_getD_getElem?, hp k hk, Option.getD_some]

theorem composePerm_perm (hp : p.toList.Perm (List.range n)) (hq : q.toList.Perm (List.range n)) :
    (composePerm p q).toList.Perm (List.range n) := by
  have hlist : (composePerm p q).toList = q.toList.map fun k => p.getD k 0 := by
    simp [composePerm]
  have hsize : p.size = n := by simpa using hp.length_eq
  have hrange : (List.range n).map (fun k => p.getD k 0) = p.toList := by
    apply List.ext_getElem
    · simp [hsize]
    · intro i hi _
      have hi' : i < p.size := by simpa [hsize] using hi
      simp [Array.getD_eq_getD_getElem?, Array.getElem?_eq_getElem hi']
  rw [hlist]
  exact (hq.map _).trans (hrange ▸ hp)

end Arrays

/-! ## Permutations in place -/

namespace M256v

/-- `permute` moves lines of `M` in place: line `p[i]` moves to line `i`, where
`moved A f` is the table whose line `i` is line `f i` of `A`. -/
structure PermutesLines (M : M256v) (n : ℕ) (moved : Table GF256 → (ℕ → ℕ) → Table GF256)
    (permute : Array ℕ → Prog (Heap UInt8) Unit) : Prop where
  exact : ∀ {h A p}, M.Holds h A → p.toList.Perm (List.range n) →
    Ends (permute p) h fun _ h' =>
      M.Holds h' (moved A fun i => p.getD i 0) ∧ AgreeOff M.cells h h'
  undo : ∀ {h A p q}, M.Holds h A → p.toList.Perm (List.range n) →
    q.toList.Perm (List.range n) → (∀ i < n, q.getD (p.getD i 0) 0 = i) →
    Ends (do permute p; permute q) h fun _ h' => ∀ ptr, h'.load ptr = h.load ptr
  compose : ∀ {h A p q}, M.Holds h A → p.toList.Perm (List.range n) →
    q.toList.Perm (List.range n) → Ends (permute (composePerm p q)) h fun _ h₁ =>
      Ends (do permute p; permute q) h fun _ h₂ => ∀ ptr, h₂.load ptr = h₁.load ptr

variable {M : M256v} {n : ℕ} {moved : Table GF256 → (ℕ → ℕ) → Table GF256}
  {permute : Array ℕ → Prog (Heap UInt8) Unit} {h h₁ h₂ : Heap UInt8} {A : Table GF256}

/-- The cells of a view and what it holds fix each other. -/
theorem Holds.load_eq (h₁A : M.Holds h₁ A) (h₂A : M.Holds h₂ A) (hagree₁ : AgreeOff M.cells h h₁)
    (hagree₂ : AgreeOff M.cells h h₂) (ptr : Ptr) : h₂.load ptr = h₁.load ptr := by
  by_cases hptr : ptr ∈ M.cells
  · obtain ⟨r, hr, c, hc, rfl⟩ := hptr
    rw [h₁A.load hr hc, h₂A.load hr hc]
  · rw [hagree₁ ptr hptr, hagree₂ ptr hptr]

/-- A permutation in place that is exact can be undone, and two in a row are one. -/
theorem permutesLines_of_exact (hmoved : ∀ A f g, moved (moved A f) g = moved A (f ∘ g))
    (hid : ∀ A, moved A id = A)
    (hcongr : ∀ {h A f g}, (∀ i < n, f i = g i) → M.Holds h (moved A f) → M.Holds h (moved A g))
    (hexact : ∀ {h A p}, M.Holds h A → p.toList.Perm (List.range n) →
      Ends (permute p) h fun _ h' =>
        M.Holds h' (moved A fun i => p.getD i 0) ∧ AgreeOff M.cells h h') :
    PermutesLines M n moved permute := by
  have htwo : ∀ {h A p q}, M.Holds h A → p.toList.Perm (List.range n) →
      q.toList.Perm (List.range n) → Ends (do permute p; permute q) h fun _ h' =>
        M.Holds h' (moved A fun i => p.getD (q.getD i 0) 0) ∧ AgreeOff M.cells h h' := by
    intro h A p q hA hp hq
    apply (hexact hA hp).bind
    rintro _ h' ⟨hA', hagree⟩
    apply (hexact hA' hq).mono
    rintro _ h'' ⟨hA'', hagree'⟩
    rw [hmoved] at hA''
    exact ⟨hA'', hagree.trans hagree'⟩
  constructor
  case exact => exact hexact
  case undo =>
    intro h A p q hA hp hq hinv
    apply (htwo hA hp hq).mono
    rintro _ h' ⟨hA', hagree⟩ ptr
    obtain ⟨π, hπ, hlt⟩ := exists_perm hp
    obtain ⟨ρ, hρ, hlt'⟩ := exists_perm hq
    have hback : ∀ i < n, p.getD (q.getD i 0) 0 = id i := fun i hi => by
      have hρi := (hlt' i).mpr hi
      rw [getD_of_getElem? hρ hi, getD_of_getElem? hπ hρi]
      apply ρ.injective
      rw [← getD_of_getElem? hρ ((hlt _).mpr hρi), ← getD_of_getElem? hπ hρi, hinv _ hρi]
      rfl
    rw [← hid A] at hA
    exact hA.load_eq (hcongr hback hA') (AgreeOff.refl _ h) hagree ptr
  case compose =>
    intro h A p q hA hp hq
    apply (hexact hA (composePerm_perm hp hq)).mono
    rintro _ h₁ ⟨hA₁, hagree₁⟩
    apply (htwo hA hp hq).mono
    rintro _ h₂ ⟨hA₂, hagree₂⟩
    have hsize : q.size = n := by simpa using hq.length_eq
    exact (hcongr (fun i hi => getD_composePerm (hsize ▸ hi)) hA₁).load_eq hA₂ hagree₁ hagree₂

/-- Permuting rows and permuting columns in place are exact for every
permutation, they can be undone, and they compose. -/
theorem permutations_exact (M : M256v) :
    PermutesLines M M.nRow (fun A f i j => A (f i) j) (MvGen.permuteRows M) ∧
      PermutesLines M M.nCol (fun A f i j => A i (f j)) (MvMatrix.permuteCols M) := by
  constructor
  case left =>
    apply permutesLines_of_exact (fun _ _ _ => rfl) (fun _ => rfl)
    · intro h A f g hfg hA
      exact hA.congr fun i hi j _ => by rw [hfg i hi]
    · intro h A p hA hp
      obtain ⟨π, hπ, hlt⟩ := exists_perm hp
      apply (HeapView.permuteRows_ends hA hlt hπ).mono
      rintro _ h' ⟨hA', hagree⟩
      exact ⟨hA'.congr fun i hi j _ =>
        congrArg (fun k => A k j) (getD_of_getElem? hπ hi).symm, hagree⟩
  case right =>
    apply permutesLines_of_exact (fun _ _ _ => rfl) (fun _ => rfl)
    · intro h A f g hfg hA
      exact hA.congr fun i _ j hj => by rw [hfg j hj]
    · intro h A p hA hp
      obtain ⟨π, hπ, hlt⟩ := exists_perm hp
      apply (HeapView.permuteCols_ends hA hlt hπ).mono
      rintro _ h' ⟨hA', hagree⟩
      exact ⟨hA'.congr fun i _ j hj =>
        congrArg (A i) (getD_of_getElem? hπ hj).symm, hagree⟩

/-- Turning the rows of a matrix around, and back, and twice in one. -/
theorem permutations_exact_three :
    Ends (MvGen.permuteRows (make 3 2 ⟨0, 0⟩) #[1, 2, 0]) ⟨#[#[1, 2, 3, 4, 5, 6]]⟩
        (fun _ h' => (make 3 2 ⟨0, 0⟩).Holds h' (rowMajor 2 #[3, 4, 5, 6, 1, 2])) ∧
      Ends (do
        MvGen.permuteRows (make 3 2 ⟨0, 0⟩) #[1, 2, 0]
        MvGen.permuteRows (make 3 2 ⟨0, 0⟩) #[2, 0, 1]) ⟨#[#[1, 2, 3, 4, 5, 6]]⟩
          (fun _ h' => ∀ ptr, h'.load ptr = Heap.load ⟨#[#[1, 2, 3, 4, 5, 6]]⟩ ptr) ∧
      Ends (MvMatrix.permuteCols (make 3 2 ⟨0, 0⟩) (composePerm #[1, 0] #[1, 0]))
        ⟨#[#[1, 2, 3, 4, 5, 6]]⟩ fun _ h₁ => Ends (do
          MvMatrix.permuteCols (make 3 2 ⟨0, 0⟩) #[1, 0]
          MvMatrix.permuteCols (make 3 2 ⟨0, 0⟩) #[1, 0]) ⟨#[#[1, 2, 3, 4, 5, 6]]⟩
            fun _ h₂ => ∀ ptr, h₂.load ptr = h₁.load ptr := by
  have hA : (make 3 2 ⟨0, 0⟩).Holds ⟨#[#[1, 2, 3, 4, 5, 6]]⟩ (rowMajor 2 #[1, 2, 3, 4, 5, 6]) :=
    holds_make rfl (by decide)
  obtain ⟨hrows, hcols⟩ := permutations_exact (make 3 2 ⟨0, 0⟩)
  refine ⟨(hrows.exact (p := #[1, 2, 0]) hA (by decide)).mono fun _ h' hpost => ?_,
    hrows.undo hA (by decide) (by decide) (by decide), hcols.compose hA (by decide) (by decide)⟩
  have htable : ∀ i < 3, ∀ j < 2, rowMajor 2 #[1, 2, 3, 4, 5, 6] (#[1, 2, 0].getD i 0) j =
      rowMajor 2 #[3, 4, 5, 6, 1, 2] i j := by decide
  exact hpost.1.congr htable

end M256v

end TvRQ
