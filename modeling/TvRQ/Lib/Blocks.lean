/-
# Lists taken in blocks

A program that reads a list in blocks of `n` members, turns each into another
block and drops what is left in the end.  Turning the blocks back gives the list
up to the end of its last complete block.
-/

import Mathlib.Data.List.TakeDrop

namespace Blocks

variable {α β : Type} {R : List α → List β → Prop} {S : List β → List α → Prop} {n m : ℕ}
  {l : List α} {l' : List β}

/-- The complete blocks of the first list correspond to the parts of the second
one; less than one block of the first list is left. -/
inductive Blockwise (R : List α → List β → Prop) (n : ℕ) : List α → List β → Prop
  | done {l : List α} (hlt : l.length < n) : Blockwise R n l []
  | step {b l : List α} {b' l' : List β} (hb : b.length = n) (hR : R b b')
      (hrest : Blockwise R n l l') : Blockwise R n (b ++ l) (b' ++ l')

/-- The part of a list up to the end of its last complete block. -/
def complete (n : ℕ) (l : List α) : List α := l.take (n * (l.length / n))

theorem complete_of_lt (h : l.length < n) : complete n l = [] := by
  rw [complete, Nat.div_eq_of_lt h, Nat.mul_zero, List.take_zero]

theorem complete_append {b : List α} (hb : b.length = n) (hn : 0 < n) :
    complete n (b ++ l) = b ++ complete n l := by
  have hdiv : (b ++ l).length / n = l.length / n + 1 := by
    rw [List.length_append, hb, Nat.add_div_left _ hn]
  rw [complete, complete, hdiv, Nat.mul_succ, Nat.add_comm, List.take_append,
    List.take_of_length_le (by omega), hb, Nat.add_sub_cancel_left]

theorem Blockwise.of_lt (h : Blockwise R n l l') (hlt : l.length < n) : l' = [] := by
  cases h with
  | done => rfl
  | step hb =>
      rw [List.length_append] at hlt
      omega

/-- The first block and the rest. -/
theorem Blockwise.append_inv {b : List α} {l₂ : List β} (h : Blockwise R n (b ++ l) l₂)
    (hb : b.length = n) :
    ∃ b' l', l₂ = b' ++ l' ∧ R b b' ∧ Blockwise R n l l' := by
  generalize hall : b ++ l = all at h
  cases h with
  | done hlt =>
      rw [← hall, List.length_append] at hlt
      omega
  | @step b₁ l₁ b' l' hb₁ hR hrest =>
      obtain ⟨rfl, rfl⟩ := List.append_inj hall (hb.trans hb₁.symm)
      exact ⟨b', l', rfl, hR, hrest⟩

theorem Blockwise.length_eq (h : Blockwise R n l l') (hn : 0 < n)
    (hR : ∀ b b', R b b' → b'.length = m) : l'.length = m * (l.length / n) := by
  induction h with
  | done hlt => rw [Nat.div_eq_of_lt hlt, List.length_nil, Nat.mul_zero]
  | step hb hRb _ ih =>
      rw [List.length_append, List.length_append, hR _ _ hRb, hb, Nat.add_div_left _ hn, ih,
        Nat.mul_succ, Nat.add_comm]

/-- The block with number `i`. -/
def block (n i : ℕ) (l : List α) : List α := (l.drop (n * i)).take n

theorem block_append_zero {b : List α} (hb : b.length = n) : block n 0 (b ++ l) = b := by
  rw [block, Nat.mul_zero, List.drop_zero, ← hb, List.take_left]

theorem block_append_succ {b : List α} (hb : b.length = n) (i : ℕ) :
    block n (i + 1) (b ++ l) = block n i l := by
  rw [block, block, Nat.mul_succ, Nat.add_comm, ← List.drop_drop, ← hb, List.drop_left]

/-- Each complete block of the first list goes with the block of the same number in
the second one. -/
theorem Blockwise.block_rel (h : Blockwise R n l l') (hn : 0 < n)
    (hR : ∀ b b', R b b' → b'.length = m) : ∀ i < l.length / n, R (block n i l) (block m i l') := by
  induction h with
  | done hlt => exact fun i hi => absurd hi (by rw [Nat.div_eq_of_lt hlt]; exact Nat.not_lt_zero i)
  | @step b l b' l' hb hRb _ ih =>
      intro i hi
      cases i with
      | zero => rwa [block_append_zero hb, block_append_zero (hR _ _ hRb)]
      | succ i =>
          rw [block_append_succ hb, block_append_succ (hR _ _ hRb)]
          refine ih i ?_
          rw [List.length_append, hb, Nat.add_div_left _ hn] at hi
          exact Nat.lt_of_succ_lt_succ hi

/-- The blocks of the second list turned back are the blocks of the first one. -/
theorem Blockwise.inverse (hm : 0 < m) (hn : 0 < n) (hR : ∀ b b', R b b' → b'.length = m)
    (hinv : ∀ b b' c, b.length = n → R b b' → S b' c → c = b) (h : Blockwise R n l l')
    {l'' : List α} (h' : Blockwise S m l' l'') : l'' = complete n l := by
  induction h generalizing l'' with
  | done hlt => rw [complete_of_lt hlt, h'.of_lt hm]
  | step hb hRb _ ih =>
      obtain ⟨c, l₁, rfl, hS, hrest⟩ := h'.append_inv (hR _ _ hRb)
      rw [complete_append hb hn, hinv _ _ _ hb hRb hS, ih hrest]

end Blocks
