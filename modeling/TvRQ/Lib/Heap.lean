/-
# Blocks of memory cells

A heap is a list of allocated blocks, each an array of cells of one type.  A
pointer names a block and an offset in it, so pointers into different blocks
never alias, and an access past the end of a block is a fault.  The laws of
`load` and `store` are all that the rest of a development needs of the
representation.
-/

import Mathlib.Data.Set.BooleanAlgebra
import Mathlib.Data.Set.Insert
import Mathlib.Order.BourbakiWitt
import Mathlib.Order.CompletePartialOrder
import TvRQ.Lib.Prog

namespace Imperative

/-- A position in memory: a block and an offset counted in cells. -/
structure Ptr where
  blk : ℕ
  off : ℕ
  deriving DecidableEq, Repr

/-- Pointer arithmetic inside a block. -/
def Ptr.add (p : Ptr) (n : ℕ) : Ptr := ⟨p.blk, p.off + n⟩

@[simp]
theorem Ptr.add_blk (p : Ptr) (n : ℕ) : (p.add n).blk = p.blk := rfl

@[simp]
theorem Ptr.add_off (p : Ptr) (n : ℕ) : (p.add n).off = p.off + n := rfl

@[simp]
theorem Ptr.add_inj {p : Ptr} {m n : ℕ} : p.add m = p.add n ↔ m = n := by
  simp [Ptr.add]

theorem Ptr.add_add (p : Ptr) (m n : ℕ) : (p.add m).add n = p.add (m + n) := by
  simp [Ptr.add, Nat.add_assoc]

theorem Ptr.ext_iff' {p q : Ptr} : p = q ↔ p.blk = q.blk ∧ p.off = q.off := by
  cases p
  cases q
  simp

/-- The allocated blocks. -/
structure Heap (α : Type) where
  blocks : Array (Array α)
  deriving DecidableEq, Repr

namespace Heap

variable {α : Type}

/-- The cell at `p`, if `p` points into an allocated block. -/
def load (h : Heap α) (p : Ptr) : Option α :=
  h.blocks[p.blk]?.bind fun block => block[p.off]?

/-- Overwrite the cell at `p`. -/
def store (h : Heap α) (p : Ptr) (v : α) : Heap α where
  blocks := h.blocks.modify p.blk fun block => block.setIfInBounds p.off v

/-- The number of cells of block `b`; an unallocated block has none. -/
def blockSize (h : Heap α) (b : ℕ) : ℕ :=
  (h.blocks[b]?.map Array.size).getD 0

theorem load_isSome {h : Heap α} {p : Ptr} :
    (h.load p).isSome ↔ p.off < h.blockSize p.blk := by
  cases hb : h.blocks[p.blk]? with
  | none => simp [load, blockSize, hb]
  | some block => simp [load, blockSize, hb]

theorem exists_load {h : Heap α} {p : Ptr} (hp : p.off < h.blockSize p.blk) :
    ∃ v, h.load p = some v :=
  Option.isSome_iff_exists.mp (load_isSome.mpr hp)

theorem load_store_self {h : Heap α} {p : Ptr} (hp : (h.load p).isSome) (v : α) :
    (h.store p v).load p = some v := by
  obtain ⟨w, hw⟩ := Option.isSome_iff_exists.mp hp
  cases hb : h.blocks[p.blk]? with
  | none => simp [load, hb] at hw
  | some block =>
      simp only [load, hb, Option.bind_some, Array.getElem?_eq_some_iff] at hw
      simp [load, store, Array.getElem?_modify, hb, hw.1]

theorem load_store_of_ne {h : Heap α} {p q : Ptr} (hne : q ≠ p) (v : α) :
    (h.store p v).load q = h.load q := by
  by_cases hblk : p.blk = q.blk
  · have hoff : p.off ≠ q.off := fun heq => hne (Ptr.ext_iff'.mpr ⟨hblk.symm, heq.symm⟩)
    cases hb : h.blocks[q.blk]? <;>
      simp [load, store, Array.getElem?_modify, hblk, hb, Array.getElem?_setIfInBounds_ne hoff]
  · simp [load, store, Array.getElem?_modify, hblk]

/-- The first of two writes to one cell does not matter. -/
theorem load_store_store {h : Heap α} {p : Ptr} (hp : (h.load p).isSome) (v w : α) (q : Ptr) :
    ((h.store p v).store p w).load q = (h.store p w).load q := by
  by_cases hq : q = p
  · subst hq
    have hp' : ((h.store q v).load q).isSome := by rw [load_store_self hp]; rfl
    rw [load_store_self hp', load_store_self hp]
  · rw [load_store_of_ne hq, load_store_of_ne hq, load_store_of_ne hq]

theorem blk_lt_of_load {h : Heap α} {p : Ptr} {v : α} (hp : h.load p = some v) :
    p.blk < h.blocks.size := by
  by_contra hge
  simp [load, Array.getElem?_eq_none (not_lt.mp hge)] at hp

/-- The size of a block shows in what can be loaded from it. -/
theorem blockSize_eq_of_load {h h' : Heap α} {b : ℕ}
    (hload : ∀ off, h'.load ⟨b, off⟩ = h.load ⟨b, off⟩) : h'.blockSize b = h.blockSize b := by
  have hiff : ∀ off, off < h'.blockSize b ↔ off < h.blockSize b := fun off => by
    have h₁ := load_isSome (h := h) (p := ⟨b, off⟩)
    rw [← hload off] at h₁
    exact load_isSome.symm.trans h₁
  apply le_antisymm
  · exact le_of_not_gt fun hlt => lt_irrefl _ ((hiff _).mp hlt)
  · exact le_of_not_gt fun hlt => lt_irrefl _ ((hiff _).mpr hlt)

theorem load_of_size_le {h : Heap α} {p : Ptr} (hp : h.blocks.size ≤ p.blk) : h.load p = none := by
  simp [load, Array.getElem?_eq_none hp]

/-- The sizes of the blocks. -/
def shape (h : Heap α) : Array ℕ := h.blocks.map Array.size

@[simp]
theorem size_shape (h : Heap α) : h.shape.size = h.blocks.size := by simp [shape]

theorem blockSize_eq (h : Heap α) (b : ℕ) : h.blockSize b = h.shape.getD b 0 := by
  simp [blockSize, shape, Array.getD_eq_getD_getElem?]

@[simp]
theorem shape_store (h : Heap α) (p : Ptr) (v : α) : (h.store p v).shape = h.shape := by
  apply Array.ext_getElem?
  intro b
  by_cases hb : p.blk = b
  · cases hblk : h.blocks[b]? <;> simp [shape, store, Array.getElem?_modify, hb, hblk]
  · simp [shape, store, Array.getElem?_modify, hb]

/-- Two heaps agree outside a set of cells. -/
def AgreeOff (cells : Set Ptr) (h h' : Heap α) : Prop :=
  ∀ p, p ∉ cells → h'.load p = h.load p

theorem AgreeOff.refl (cells : Set Ptr) (h : Heap α) : AgreeOff cells h h :=
  fun _ _ => rfl

theorem AgreeOff.trans {cells : Set Ptr} {h₁ h₂ h₃ : Heap α} (h₁₂ : AgreeOff cells h₁ h₂)
    (h₂₃ : AgreeOff cells h₂ h₃) : AgreeOff cells h₁ h₃ :=
  fun p hp => (h₂₃ p hp).trans (h₁₂ p hp)

theorem AgreeOff.mono {cells cells' : Set Ptr} {h h' : Heap α} (hagree : AgreeOff cells h h')
    (hsub : cells ⊆ cells') : AgreeOff cells' h h' :=
  fun p hp => hagree p fun hmem => hp (hsub hmem)

theorem agreeOff_store {cells : Set Ptr} {p : Ptr} (hp : p ∈ cells) (h : Heap α) (v : α) :
    AgreeOff cells h (h.store p v) :=
  fun q hq => load_store_of_ne (fun heq : q = p => hq (heq ▸ hp)) v

/-- From `h` to `h'` the cell `p` has received `v` and nothing else has changed. -/
structure Wrote (p : Ptr) (v : α) (h h' : Heap α) : Prop where
  load_eq : h'.load p = some v
  agreeOff : AgreeOff {p} h h'

theorem wrote_store {h : Heap α} {p : Ptr} (hp : (h.load p).isSome) (v : α) :
    Wrote p v h (h.store p v) :=
  ⟨load_store_self hp v, agreeOff_store (Set.mem_singleton p) h v⟩

/-- A cell may be left alone when it has the value already. -/
theorem wrote_self {h : Heap α} {p : Ptr} {v : α} (hp : h.load p = some v) : Wrote p v h h :=
  ⟨hp, AgreeOff.refl _ h⟩

end Heap

variable {α : Type}

/-- Read the cell at `p`. -/
def load (p : Ptr) : Prog (Heap α) α := fun h =>
  match h.load p with
  | some v => .ok (v, h)
  | none => .error .outOfBounds

/-- Write the cell at `p`, which must be allocated. -/
def store (p : Ptr) (v : α) : Prog (Heap α) Unit := fun h =>
  if (h.load p).isSome then .ok ((), h.store p v) else .error .outOfBounds

/-- Reserve a block of `n` cells for a local array; its contents are arbitrary. -/
def alloc (n : ℕ) (junk : α) : Prog (Heap α) Ptr := fun h =>
  .ok (⟨h.blocks.size, 0⟩, ⟨h.blocks.push (Array.replicate n junk)⟩)

/-- Release the block reserved last. -/
def release : Prog (Heap α) Unit := fun h =>
  .ok ((), ⟨h.blocks.pop⟩)

@[simp]
theorem ends_load {p : Ptr} {h : Heap α} {Q : α → Heap α → Prop} :
    Ends (load p) h Q ↔ ∃ v, h.load p = some v ∧ Q v h := by
  cases hp : h.load p with
  | none =>
      constructor
      · rintro ⟨a, s', hrun, -⟩
        simp [load, hp] at hrun
      · rintro ⟨v, hv, -⟩
        cases hv
  | some v =>
      have hrun : load p h = .ok (v, h) := by simp [load, hp]
      simp [ends_of_run hrun]

@[simp]
theorem ends_store {p : Ptr} {v : α} {h : Heap α} {Q : Unit → Heap α → Prop} :
    Ends (store p v) h Q ↔ (h.load p).isSome ∧ Q () (h.store p v) := by
  by_cases hp : (h.load p).isSome
  · have hrun : store p v h = .ok ((), h.store p v) := by simp [store, hp]
    simp [ends_of_run hrun, hp]
  · constructor
    · rintro ⟨a, s', hrun, -⟩
      simp [store, hp] at hrun
    · rintro ⟨hsome, -⟩
      exact absurd hsome hp

@[simp]
theorem ends_alloc {n : ℕ} {junk : α} {h : Heap α} {Q : Ptr → Heap α → Prop} :
    Ends (alloc n junk) h Q ↔
      Q ⟨h.blocks.size, 0⟩ ⟨h.blocks.push (Array.replicate n junk)⟩ :=
  ends_of_run rfl

@[simp]
theorem ends_release {h : Heap α} {Q : Unit → Heap α → Prop} :
    Ends release h Q ↔ Q () ⟨h.blocks.pop⟩ :=
  ends_of_run rfl

/-! ## Local blocks -/

/-- A program that neither reserves nor releases a block for good. -/
def KeepsShape {β : Type} (p : Prog (Heap α) β) : Prop :=
  ∀ sizes : Array ℕ, Keeps (fun h : Heap α => h.shape = sizes) p

theorem keepsShape_load (p : Ptr) : KeepsShape (load p : Prog (Heap α) α) :=
  fun _ => keeps_iff.mpr fun h hh _ hends => by
    rw [ends_load] at hends ⊢
    obtain ⟨v, hv, hQ⟩ := hends
    exact ⟨v, hv, hQ, hh⟩

theorem keepsShape_store (p : Ptr) (v : α) : KeepsShape (store p v : Prog (Heap α) Unit) :=
  fun _ => keeps_iff.mpr fun h hh _ hends => by
    rw [ends_store] at hends ⊢
    exact ⟨hends.1, hends.2, by rw [Heap.shape_store, hh]⟩

namespace Heap

/-- The heap during the life of a local block. -/
def withBlock (h : Heap α) (block : Array α) : Heap α := ⟨h.blocks.push block⟩

/-- The heap after the end of the life of the last block. -/
def dropBlock (h : Heap α) : Heap α := ⟨h.blocks.pop⟩

theorem load_withBlock {h : Heap α} {p : Ptr} (hp : p.blk < h.blocks.size) (block : Array α) :
    (h.withBlock block).load p = h.load p := by
  simp [withBlock, load, Array.getElem?_push, hp.ne]

theorem load_dropBlock {h : Heap α} {p : Ptr} (hp : p.blk + 1 < h.blocks.size) :
    h.dropBlock.load p = h.load p := by
  have hlt : p.blk < h.blocks.size - 1 := by omega
  simp only [dropBlock, load, Array.getElem?_pop, if_pos hlt]

@[simp]
theorem shape_withBlock (h : Heap α) (block : Array α) :
    (h.withBlock block).shape = h.shape.push block.size := by
  simp [withBlock, shape]

@[simp]
theorem shape_dropBlock (h : Heap α) : h.dropBlock.shape = h.shape.pop := by
  simp [dropBlock, shape]

variable {h h₁ : Heap α} {block : Array α} {cells : Set Ptr}

/-- What is in the blocks that were there before survives the end of the local one. -/
theorem load_dropBlock_of_shape (hshape : h₁.shape = (h.withBlock block).shape) {p : Ptr}
    (hp : p.blk < h.blocks.size) : h₁.dropBlock.load p = h₁.load p := by
  have hsize : h₁.blocks.size = h.blocks.size + 1 := by
    rw [← size_shape, hshape, size_shape, withBlock, Array.size_push]
  exact load_dropBlock (by omega)

/-- A local block leaves no trace. -/
theorem agreeOff_dropBlock (hagree : AgreeOff (cells ∪ {p | p.blk = h.blocks.size})
    (h.withBlock block) h₁) (hshape : h₁.shape = (h.withBlock block).shape) :
    AgreeOff cells h h₁.dropBlock := by
  intro p hp
  by_cases hblk : p.blk < h.blocks.size
  · have hout : p ∉ cells ∪ {p | p.blk = h.blocks.size} := by
      rintro (hmem | hmem)
      · exact hp hmem
      · exact hblk.ne hmem
    rw [load_dropBlock_of_shape hshape hblk, hagree p hout, load_withBlock hblk]
  · have hsize : h₁.dropBlock.blocks.size = h.blocks.size := by
      rw [dropBlock, Array.size_pop, ← size_shape, hshape, size_shape, withBlock,
        Array.size_push, Nat.add_sub_cancel]
    rw [load_of_size_le (by omega), load_of_size_le (by omega)]

end Heap

/-! ## Loops that write one cell in each pass -/

namespace Heap

/-- The cells that the passes from `lo` to `k` write. -/
def targets (target : ℕ → Ptr) (lo k : ℕ) : Set Ptr := {p | ∃ i, lo ≤ i ∧ i < k ∧ p = target i}

/-- The passes from `lo` to `k` have written their targets and nothing else; pass `i`
has written `value i`, if this does not depend on what the passes before it wrote. -/
structure Written (target : ℕ → Ptr) (value : ℕ → Heap α → α) (lo k : ℕ) (h h' : Heap α) :
    Prop where
  agreeOff : AgreeOff (targets target lo k) h h'
  isSome : ∀ p, (h.load p).isSome → (h'.load p).isSome
  load_eq : ∀ i, lo ≤ i → i < k →
    (∀ g, AgreeOff (targets target lo i) h g → value i g = value i h) →
      h'.load (target i) = some (value i h)

variable {h h₁ h₂ : Heap α} {target : ℕ → Ptr} {value : ℕ → Heap α → α} {lo hi k : ℕ}

theorem Written.init : Written target value lo lo h h where
  agreeOff := AgreeOff.refl _ h
  isSome := fun _ hp => hp
  load_eq := fun _ hlo hhi => absurd hhi (not_lt.mpr hlo)

theorem mem_targets_succ (hlo : lo ≤ k) : target k ∈ targets target lo (k + 1) :=
  ⟨k, hlo, Nat.lt_succ_self k, rfl⟩

theorem notMem_targets {p : Ptr} (hne : ∀ i, lo ≤ i → i < k → target i ≠ p) :
    p ∉ targets target lo k := by
  rintro ⟨i, hlo, hik, rfl⟩
  exact hne i hlo hik rfl

theorem targets_mono (hk : k ≤ hi) : targets target lo k ⊆ targets target lo hi := by
  rintro p ⟨i, hlo, hi, rfl⟩
  exact ⟨i, hlo, hi.trans_le hk, rfl⟩

/-- One more pass, whose target is new. -/
theorem Written.step (hw : Written target value lo k h h₁) (hlo : lo ≤ k)
    (hnew : ∀ i, lo ≤ i → i < k → target i ≠ target k)
    (hwrote : Wrote (target k) (value k h₁) h₁ h₂) : Written target value lo (k + 1) h h₂ where
  agreeOff := by
    refine (hw.agreeOff.mono (targets_mono (Nat.le_succ k))).trans (hwrote.agreeOff.mono ?_)
    rintro p rfl
    exact mem_targets_succ hlo
  isSome := fun p hp => by
    by_cases heq : p = target k
    · rw [heq, hwrote.load_eq]
      rfl
    · rw [hwrote.agreeOff p heq]
      exact hw.isSome p hp
  load_eq := fun i hi hik hvalue => by
    rcases Nat.lt_succ_iff_lt_or_eq.mp hik with hlt | rfl
    · rw [hwrote.agreeOff _ (hnew i hi hlt)]
      exact hw.load_eq i hi hlt hvalue
    · rw [hwrote.load_eq, hvalue h₁ hw.agreeOff]

end Heap

section WriteLoop

variable {h : Heap α} {body : ℕ → Prog (Heap α) Unit} {target : ℕ → Ptr} {lo hi : ℕ}

/-- A loop whose passes write different cells. -/
theorem writeLoop_ends (value : ℕ → Heap α → α) (hle : lo ≤ hi)
    (hnew : ∀ i k, lo ≤ i → i < k → k < hi → target i ≠ target k)
    (hbody : ∀ k h₁, lo ≤ k → k < hi → h.Written target value lo k h₁ →
      Ends (body k) h₁ fun _ => h₁.Wrote (target k) (value k h₁)) :
    Ends (forRange lo hi body) h fun _ h' => h.Written target value lo hi h' := by
  refine forRange_ends (fun k h' => h.Written target value lo k h') hle
    (fun k h₁ hlo hk hw => ?_) Heap.Written.init
  apply (hbody k h₁ hlo hk hw).mono
  intro _ h₂ hwrote
  exact hw.step hlo (fun i hi hik => hnew i k hi hik hk) hwrote

/-- The same for a loop that counts from zero. -/
theorem writeLoop_ends_sub (value : ℕ → Heap α → α) (hle : lo ≤ hi)
    (hnew : ∀ i k, lo ≤ i → i < k → k < hi → target i ≠ target k)
    (hbody : ∀ k h₁, lo + k < hi → h.Written target value lo (lo + k) h₁ →
      Ends (body k) h₁ fun _ => h₁.Wrote (target (lo + k)) (value (lo + k) h₁)) :
    Ends (forRange 0 (hi - lo) body) h fun _ h' => h.Written target value lo hi h' := by
  have hloop : Ends (forRange 0 (hi - lo) body) h fun _ h' =>
      h.Written target value lo (lo + (hi - lo)) h' := by
    refine forRange_ends (fun k h' => h.Written target value lo (lo + k) h') (Nat.zero_le _)
      (fun k h₁ _ hk hw => ?_) Heap.Written.init
    have hk' : lo + k < hi := by omega
    apply (hbody k h₁ hk' hw).mono
    intro _ h₂ hwrote
    exact hw.step (Nat.le_add_right lo k) (fun i hi hik => hnew i _ hi hik hk') hwrote
  rwa [Nat.add_sub_cancel' hle] at hloop

end WriteLoop

end Imperative
