/-
# Permuting in place along cycles

A permutation of numbered lines can be carried out with room for one line:
save a line, fill the gap with the line that belongs there, go on with the gap
that this leaves, and put the saved line into the last gap.  An array of marks
says which lines are done.  The program below is this routine over any way of
saving, moving and restoring a line.  When the array is a permutation it ends,
its assertion holds, and every line has what it should.
-/

import Mathlib.Algebra.Group.Nat.Defs
import Mathlib.Data.Finset.Card
import Mathlib.Data.Finset.Insert
import Mathlib.Data.Finset.Range
import Mathlib.Logic.Function.Basic
import TvRQ.Lib.Prog

namespace Imperative

variable {σ β : Type}

/-! ## The program -/

/-- The cycle that starts at line `i`: every line takes the contents of the line
it comes from, and the last one those of line `i`, which were saved. -/
def followCycle (n : ℕ) (save restore : ℕ → Prog σ Unit) (move : ℕ → ℕ → Prog σ Unit)
    (perm : Array ℕ) (i : ℕ) (visited : Array Bool) : Prog σ (Array Bool) := do
  save i
  let eNext ← readArray perm i
  let (e, _, visited) ← whileDo (fun x : ℕ × ℕ × Array Bool => x.2.1 != i)
    (fun (e, eNext, visited) => do
      let seen ← readArray visited eNext
      ensure (seen = false)
      let visited ← writeArray visited eNext true
      move eNext e
      let next ← readArray perm eNext
      pure (eNext, next, visited))
    (n + 1) (i, eNext, visited)
  let visited ← writeArray visited i true
  restore e
  pure visited

/-- Move line `perm[i]` to line `i`, for each of the `n` lines. -/
def permuteLines (n : ℕ) (save restore : ℕ → Prog σ Unit) (move : ℕ → ℕ → Prog σ Unit)
    (perm : Array ℕ) : Prog σ (Array Bool) :=
  foldRange 0 n (Array.replicate n false) fun i visited => do
    let seen ← readArray visited i
    if seen then
      pure visited
    else
      let from_ ← readArray perm i
      if from_ = i then
        writeArray visited i true
      else
        followCycle n save restore move perm i visited

/-! ## The invariants -/

/-- The array marks the members of `V`, which are below `n`. -/
structure Marks (n : ℕ) (visited : Array Bool) (V : Finset ℕ) : Prop where
  size_eq : visited.size = n
  get_eq : ∀ k < n, visited[k]? = some (decide (k ∈ V))
  lt : ∀ k ∈ V, k < n

theorem marks_empty (n : ℕ) : Marks n (Array.replicate n false) ∅ where
  size_eq := Array.size_replicate
  get_eq := fun k hk => by simp [hk]
  lt := fun k hk => absurd hk (Finset.notMem_empty k)

theorem Marks.insert {n i : ℕ} {visited : Array Bool} {V : Finset ℕ} (h : Marks n visited V)
    (hi : i < n) : Marks n (visited.setIfInBounds i true) (insert i V) where
  size_eq := by rw [Array.size_setIfInBounds, h.size_eq]
  get_eq := fun k hk => by
    by_cases hki : k = i
    · simp [hki, h.size_eq, hi]
    · rw [Array.getElem?_setIfInBounds_ne (Ne.symm hki), h.get_eq k hk]
      simp [hki]
  lt := fun k hk => by
    rcases Finset.mem_insert.mp hk with rfl | hmem
    · exact hi
    · exact h.lt k hmem

/-- The number of marks is bounded, and a new one raises it. -/
theorem Marks.card_lt {n i : ℕ} {visited : Array Bool} {V : Finset ℕ} (h : Marks n visited V)
    (hi : i < n) (hiV : i ∉ V) : V.card < n := by
  have hsub : Insert.insert i V ⊆ Finset.range n := fun k hk =>
    Finset.mem_range.mpr ((h.insert hi).lt k hk)
  have hcard := Finset.card_le_card hsub
  rw [Finset.card_insert_of_notMem hiV, Finset.card_range] at hcard
  exact hcard

/-- Between two cycles the lines of `V`, a union of cycles, are done and the
others are as they were. -/
structure LinesDone (π : Equiv.Perm ℕ) (x y : ℕ → β) (V : Finset ℕ) : Prop where
  closed : ∀ k ∈ V, π.symm k ∈ V
  eq : ∀ k, y k = if k ∈ V then x (π k) else x k

/-- Inside the cycle of `i` the gap is at `e`.  Of the lines of `V` and line `i`
all but `e` are done, and each marked line was entered from one of them. -/
structure CycleOpen (π : Equiv.Perm ℕ) (i : ℕ) (x y : ℕ → β) (e : ℕ) (V : Finset ℕ) : Prop where
  start_notMem : i ∉ V
  gap_mem : e ∈ insert i V
  entered : ∀ k ∈ V, π.symm k ≠ e ∧ π.symm k ∈ insert i V
  filled : ∀ k ∈ insert i V, k ≠ e → y k = x (π k)
  gap : y e = x e
  untouched : ∀ k, k ∉ insert i V → y k = x k

variable {π : Equiv.Perm ℕ} {i e n : ℕ} {x y : ℕ → β} {V : Finset ℕ}

theorem LinesDone.start (h : LinesDone π x y V) (hi : i ∉ V) : CycleOpen π i x y i V where
  start_notMem := hi
  gap_mem := Finset.mem_insert_self i V
  entered := fun k hk => ⟨fun heq => hi (heq ▸ h.closed k hk),
    Finset.mem_insert_of_mem (h.closed k hk)⟩
  filled := fun k hk hne => by
    rw [h.eq k, if_pos (Finset.mem_of_mem_insert_of_ne hk hne)]
  gap := by rw [h.eq i, if_neg hi]
  untouched := fun k hk => by
    rw [h.eq k, if_neg fun hmem => hk (Finset.mem_insert_of_mem hmem)]

/-- The line that belongs into the gap is not marked. -/
theorem CycleOpen.next_notMem (h : CycleOpen π i x y e V) (hne : π e ≠ i) :
    π e ∉ insert i V := by
  intro hmem
  have hentered := h.entered (π e) (Finset.mem_of_mem_insert_of_ne hmem hne)
  exact hentered.1 (π.symm_apply_apply e)

/-- Filling the gap opens the next one. -/
theorem CycleOpen.step (h : CycleOpen π i x y e V) (hne : π e ≠ i) :
    CycleOpen π i x (Function.update y e (y (π e))) (π e) (insert (π e) V) := by
  have hnot := h.next_notMem hne
  have he : e ≠ π e := fun heq => hnot (heq ▸ h.gap_mem)
  have hcomm : insert i (insert (π e) V) = insert (π e) (insert i V) :=
    Finset.insert_comm _ _ _
  constructor
  case start_notMem =>
    intro hmem
    rcases Finset.mem_insert.mp hmem with heq | hmem
    · exact hne heq.symm
    · exact h.start_notMem hmem
  case gap_mem =>
    rw [hcomm]
    exact Finset.mem_insert_self _ _
  case entered =>
    intro k hk
    rw [hcomm]
    rcases Finset.mem_insert.mp hk with rfl | hmem
    · rw [π.symm_apply_apply]
      exact ⟨he, Finset.mem_insert_of_mem h.gap_mem⟩
    · have hentered := h.entered k hmem
      exact ⟨fun heq => hnot (heq ▸ hentered.2), Finset.mem_insert_of_mem hentered.2⟩
  case filled =>
    intro k hk hkne
    rw [hcomm] at hk
    have hmem := Finset.mem_of_mem_insert_of_ne hk hkne
    by_cases hke : k = e
    · rw [hke, Function.update_self, h.untouched _ hnot]
    · rw [Function.update_of_ne hke, h.filled k hmem hke]
  case gap =>
    rw [Function.update_of_ne he.symm, h.untouched _ hnot]
  case untouched =>
    intro k hk
    rw [hcomm, Finset.mem_insert, not_or] at hk
    have hke : k ≠ e := by
      rintro rfl
      exact hk.2 h.gap_mem
    rw [Function.update_of_ne hke, h.untouched k hk.2]

/-- Closing the cycle with the saved line. -/
theorem CycleOpen.close (h : CycleOpen π i x y e V) (heq : π e = i) :
    LinesDone π x (Function.update y e (x i)) (insert i V) where
  closed := fun k hk => by
    rcases Finset.mem_insert.mp hk with rfl | hmem
    · rw [← heq, π.symm_apply_apply, heq]
      exact h.gap_mem
    · exact (h.entered k hmem).2
  eq := fun k => by
    by_cases hke : k = e
    · rw [hke, Function.update_self, if_pos h.gap_mem, heq]
    · rw [Function.update_of_ne hke]
      split_ifs with hk
      · exact h.filled k hk hke
      · exact h.untouched k hk

/-! ## The run -/

/-- The parts of the program do what their names say: `R y b` is the assertion
that the lines hold `y` and that `b` is saved. -/
structure LineMoves (n : ℕ) (save restore : ℕ → Prog σ Unit) (move : ℕ → ℕ → Prog σ Unit)
    (R : (ℕ → β) → β → σ → Prop) : Prop where
  save_ends : ∀ {y b s i}, i < n → R y b s → Ends (save i) s fun _ => R y (y i)
  restore_ends : ∀ {y b s i}, i < n → R y b s →
    Ends (restore i) s fun _ => R (Function.update y i b) b
  move_ends : ∀ {y b s i j}, i < n → j < n → R y b s →
    Ends (move i j) s fun _ => R (Function.update y j (y i)) b

variable {save restore : ℕ → Prog σ Unit} {move : ℕ → ℕ → Prog σ Unit}
  {R : (ℕ → β) → β → σ → Prop} {perm : Array ℕ} {visited : Array Bool} {b : β} {s : σ}

/-- One cycle is done from its first gap to its last one. -/
theorem followCycle_ends (hR : LineMoves n save restore move R) (hlt : ∀ k, π k < n ↔ k < n)
    (hperm : ∀ k < n, perm[k]? = some (π k)) (hV : Marks n visited V) (hx : LinesDone π x y V)
    (hi : i < n) (hiV : i ∉ V) (hy : R y b s) :
    Ends (followCycle n save restore move perm i visited) s fun visited' s' =>
      ∃ V' y' b', V ⊆ V' ∧ i ∈ V' ∧ Marks n visited' V' ∧ LinesDone π x y' V' ∧ R y' b' s' := by
  unfold followCycle
  apply (hR.save_ends hi hy).bind
  intro _ s₁ hs₁
  rw [ends_bind, ends_readArray]
  refine ⟨_, hperm i hi, ?_⟩
  -- Every pass of the loop adds a mark, and there are at most `n`.
  let I : ℕ → ℕ × ℕ × Array Bool → σ → Prop := fun m z s' => ∃ W y',
    m + W.card = n ∧ V ⊆ W ∧ Marks n z.2.2 W ∧ z.1 < n ∧ z.2.1 = π z.1 ∧
      CycleOpen π i x y' z.1 W ∧ R y' (y i) s'
  refine (whileDo_ends (m := n - V.card) I ?_ (by omega) ?_).bind ?_
  · rintro m ⟨e, eNext, marks⟩ s₂ hcond ⟨W, y', hm, hVW, hW, he, hnext, hopen, hs₂⟩
    change eNext = π e at hnext
    subst hnext
    have hne : π e ≠ i := by simpa using hcond
    have hnot := hopen.next_notMem hne
    have hnotW : π e ∉ W := fun hmem => hnot (Finset.mem_insert_of_mem hmem)
    have hlt' : π e < n := (hlt e).mpr he
    have hcard := hW.card_lt hlt' hnotW
    simp only [ends_bind, ends_readArray, ends_ensure, ends_writeArray, ends_pure]
    refine ⟨_, hW.get_eq _ hlt', by simpa using hnotW, by rwa [hW.size_eq], ?_⟩
    apply (hR.move_ends hlt' he hs₂).mono
    intro _ s₃ hs₃
    refine ⟨_, hperm _ hlt', m - 1, by omega, insert (π e) W, _, ?_,
      hVW.trans (Finset.subset_insert _ _), hW.insert hlt', hlt', rfl, hopen.step hne, hs₃⟩
    rw [Finset.card_insert_of_notMem hnotW]
    omega
  · have hcard := hV.card_lt hi hiV
    exact ⟨V, y, by omega, Finset.Subset.refl V, hV, hi, rfl, hx.start hiV, hs₁⟩
  · rintro ⟨e, eNext, marks⟩ s₂ ⟨hcond, m, W, y', -, hVW, hW, he, hnext, hopen, hs₂⟩
    change eNext = π e at hnext
    have hclosed : π e = i := by
      rw [← hnext]
      simpa using hcond
    have hyi : y i = x i := by rw [hx.eq i, if_neg hiV]
    simp only [ends_bind, ends_writeArray, ends_pure]
    refine ⟨by rwa [hW.size_eq], ?_⟩
    apply (hR.restore_ends he hs₂).mono
    intro _ s₃ hs₃
    rw [hyi] at hs₃
    exact ⟨insert i W, _, _, hVW.trans (Finset.subset_insert _ _), Finset.mem_insert_self i W,
      hW.insert hi, hopen.close hclosed, hs₃⟩

/-- The routine ends for every permutation of the lines, and every line then has
the contents of the line that it comes from. -/
theorem permuteLines_ends (hR : LineMoves n save restore move R) (hlt : ∀ k, π k < n ↔ k < n)
    (hperm : ∀ k < n, perm[k]? = some (π k)) (hx : R x b s) :
    Ends (permuteLines n save restore move perm) s fun _ s' =>
      ∃ y b', (∀ k, y k = if k < n then x (π k) else x k) ∧ R y b' s' := by
  unfold permuteLines
  refine (foldRange_ends (fun i visited s' => ∃ V y b', (∀ k < i, k ∈ V) ∧ Marks n visited V ∧
    LinesDone π x y V ∧ R y b' s') (Nat.zero_le n) ?_ ?_).mono ?_
  · rintro i visited s₁ - hi ⟨V, y, b', hbefore, hV, hdone, hs₁⟩
    have hsucc : ∀ {V' : Finset ℕ}, V ⊆ V' → i ∈ V' → ∀ k < i + 1, k ∈ V' := by
      intro V' hsub hmem k hk
      rcases Nat.lt_succ_iff_lt_or_eq.mp hk with hlt | rfl
      · exact hsub (hbefore k hlt)
      · exact hmem
    simp only [ends_bind, ends_readArray]
    refine ⟨_, hV.get_eq i hi, ?_⟩
    by_cases hiV : i ∈ V
    · simp only [hiV, decide_true, if_true, ends_pure]
      exact ⟨V, y, b', hsucc (Finset.Subset.refl V) hiV, hV, hdone, hs₁⟩
    · simp only [hiV, decide_false, Bool.false_eq_true, if_false, ends_bind, ends_readArray]
      refine ⟨_, hperm i hi, ?_⟩
      split_ifs with hfix
      · -- A line that stays in its place is a cycle without a gap to fill.
        have hsame : Function.update y i (x i) = y := by
          have hyi : y i = x i := by rw [hdone.eq i, if_neg hiV]
          rw [← hyi, Function.update_eq_self]
        have hclose := (hdone.start hiV).close hfix
        rw [hsame] at hclose
        rw [ends_writeArray]
        exact ⟨by rwa [hV.size_eq], insert i V, y, b', hsucc (Finset.subset_insert _ _)
          (Finset.mem_insert_self i V), hV.insert hi, hclose, hs₁⟩
      · apply (followCycle_ends hR hlt hperm hV hdone hi hiV hs₁).mono
        rintro visited' s₂ ⟨V', y', b'', hsub, hmem, hV', hdone', hs₂⟩
        exact ⟨V', y', b'', hsucc hsub hmem, hV', hdone', hs₂⟩
  · exact ⟨∅, x, b, fun k hk => absurd hk (Nat.not_lt_zero k), marks_empty n,
      ⟨fun k hk => absurd hk (Finset.notMem_empty k), fun k => by simp⟩, hx⟩
  · rintro visited s' ⟨V, y, b', hbefore, hV, hdone, hs'⟩
    have hiff : ∀ k, k ∈ V ↔ k < n := fun k => ⟨hV.lt k, hbefore k⟩
    refine ⟨y, b', fun k => ?_, hs'⟩
    rw [hdone.eq k]
    simp only [hiff]

/-! ## The permutation in an array -/

/-- The permutation that an array of numbers lists, with the other numbers fixed. -/
theorem exists_perm {p : Array ℕ} {n : ℕ} (hp : p.toList.Perm (List.range n)) : ∃ π : Equiv.Perm ℕ,
    (∀ k < n, p[k]? = some (π k)) ∧ ∀ k, π k < n ↔ k < n := by
  have hsize : p.size = n := by simpa using hp.length_eq
  have hmem : ∀ k < n, p.getD k 0 < n := fun k hk => by
    have hk' : k < p.size := hsize ▸ hk
    have hin : p[k] ∈ p.toList := by simp
    rw [Array.getD_eq_getD_getElem?, Array.getElem?_eq_getElem (hsize ▸ hk)]
    exact List.mem_range.mp (hp.mem_iff.mp hin)
  let f : ℕ → ℕ := fun k => if k < n then p.getD k 0 else k
  have hf : ∀ k < n, f k = p.getD k 0 := fun k hk => if_pos hk
  have hf' : ∀ k, ¬ k < n → f k = k := fun k hk => if_neg hk
  have hlt : ∀ k, f k < n ↔ k < n := fun k => by
    by_cases hk : k < n
    · rw [hf k hk]
      exact ⟨fun _ => hk, fun _ => hmem k hk⟩
    · rw [hf' k hk]
  have hsurj : Function.Surjective f := fun j => by
    by_cases hj : j < n
    · obtain ⟨k, hk, hkj⟩ := List.mem_iff_getElem.mp (hp.mem_iff.mpr (List.mem_range.mpr hj))
      have hk' : k < p.size := by simpa using hk
      refine ⟨k, ?_⟩
      rw [hf k (hsize ▸ hk'), Array.getD_eq_getD_getElem?, Array.getElem?_eq_getElem hk']
      simpa using hkj
    · exact ⟨j, hf' j hj⟩
  have hinj : Function.Injective f := fun i j hij => by
    by_cases hi : i < n
    · have hj : j < n := (hlt j).mp (hij ▸ (hlt i).mpr hi)
      rw [hf i hi, hf j hj, Array.getD_eq_getD_getElem?, Array.getD_eq_getD_getElem?,
        Array.getElem?_eq_getElem (hsize ▸ hi), Array.getElem?_eq_getElem (hsize ▸ hj)] at hij
      have hnodup : p.toList.Nodup := hp.nodup_iff.mpr List.nodup_range
      have hi' : i < p.toList.length := by simpa [hsize]
      have hj' : j < p.toList.length := by simpa [hsize]
      have hget : p.toList[i] = p.toList[j] := by simpa using hij
      exact hnodup.getElem_inj_iff.mp hget
    · have hj : ¬ j < n := fun hj => hi ((hlt i).mp (hij ▸ (hlt j).mpr hj))
      rwa [hf' i hi, hf' j hj] at hij
  have hbij : Function.Bijective f := ⟨hinj, hsurj⟩
  refine ⟨Equiv.ofBijective f hbij, fun k hk => ?_, hlt⟩
  rw [Equiv.ofBijective_apply, hf k hk, Array.getD_eq_getD_getElem?,
    Array.getElem?_eq_getElem (hsize ▸ hk)]
  rfl

end Imperative
