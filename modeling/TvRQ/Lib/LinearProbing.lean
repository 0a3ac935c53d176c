/-
# Linear probing

The search for a key in a table of `m` slots starts at the home of the key and
goes from slot to slot, around the end of the table, up to the key or to a free
slot.  As long as keys are only put where the search for them has stopped, it
stops at the key exactly if the key is in the table.
-/

import Mathlib.Data.Finset.Card
import Mathlib.Data.Finset.Range
import Mathlib.Data.Nat.Find
import Mathlib.Logic.Function.Basic

namespace LinearProbing

open Finset Function

variable {α : Type} {m : ℕ} {home : α → ℕ} {t : ℕ → Option α} {k : α} {i j : ℕ}

/-- The slot that step `j` of the search looks at. -/
def slot (m : ℕ) (home : α → ℕ) (k : α) (j : ℕ) : ℕ := (home k + j) % m

theorem slot_lt (hm : 0 < m) : slot m home k j < m := Nat.mod_lt _ hm

/-- One slot further, around the end. -/
theorem slot_succ (hm : 0 < m) : slot m home k (j + 1) =
    if slot m home k j + 1 = m then 0 else slot m home k j + 1 := by
  have hlt : slot m home k j < m := slot_lt hm
  have hstep : slot m home k (j + 1) = (slot m home k j + 1) % m := by
    rw [slot, slot, Nat.mod_add_mod, Nat.add_assoc]
  rw [hstep]
  split_ifs with hend
  · rw [hend, Nat.mod_self]
  · exact Nat.mod_eq_of_lt (by omega)

/-- Every slot is passed. -/
theorem exists_slot (home : α → ℕ) (hi : i < m) (k : α) : ∃ j < m, slot m home k j = i := by
  have hm : 0 < m := Nat.zero_lt_of_lt hi
  have hhome : home k % m < m := Nat.mod_lt _ hm
  refine ⟨(i + (m - home k % m)) % m, Nat.mod_lt _ hm, ?_⟩
  rw [slot, Nat.add_mod_mod, ← Nat.mod_add_mod,
    show home k % m + (i + (m - home k % m)) = i + m by omega, Nat.add_mod_right,
    Nat.mod_eq_of_lt hi]

/-- No slot before the one of a key is free on the way from its home. -/
def Reachable (m : ℕ) (home : α → ℕ) (t : ℕ → Option α) : Prop :=
  ∀ i < m, ∀ k, t i = some k → ∃ j < m, slot m home k j = i ∧
    ∀ l < j, (t (slot m home k l)).isSome

/-- The search for `k` stops in step `j`. -/
structure Stops (m : ℕ) (home : α → ℕ) (t : ℕ → Option α) (k : α) (j : ℕ) : Prop where
  lt : j < m
  stop : t (slot m home k j) = none ∨ t (slot m home k j) = some k
  before : ∀ l < j, t (slot m home k l) ≠ none ∧ t (slot m home k l) ≠ some k

/-- A table that is not full stops every search. -/
theorem exists_stops [DecidableEq α] (hfree : ∃ i < m, t i = none) (k : α) :
    ∃ j, Stops m home t k j := by
  obtain ⟨i, hi, hnone⟩ := hfree
  obtain ⟨j, hj, rfl⟩ := exists_slot home hi k
  have hex : ∃ j, t (slot m home k j) = none ∨ t (slot m home k j) = some k :=
    ⟨j, Or.inl hnone⟩
  refine ⟨Nat.find hex, (Nat.find_min' hex (Or.inl hnone)).trans_lt hj, Nat.find_spec hex, ?_⟩
  intro l hl
  exact not_or.mp (Nat.find_min hex hl)

/-- It stops at the key if the key is there. -/
theorem Reachable.stops_iff (ht : Reachable m home t) (h : Stops m home t k j) :
    t (slot m home k j) = some k ↔ ∃ i < m, t i = some k := by
  constructor
  · exact fun hk => ⟨_, slot_lt (Nat.zero_lt_of_lt h.lt), hk⟩
  · rintro ⟨i, hi, hk⟩
    obtain ⟨j', -, rfl, hbefore⟩ := ht i hi k hk
    rcases h.stop with hnone | hsome
    · have hle : j ≤ j' := by
        by_contra hlt
        exact (h.before j' (not_le.mp hlt)).2 hk
      rcases hle.lt_or_eq with hlt | rfl
      · have hused := hbefore j hlt
        rw [hnone] at hused
        cases hused
      · exact absurd (hnone.symm.trans hk) (by simp)
    · exact hsome

/-- A key is put where its search has stopped. -/
theorem Reachable.update (ht : Reachable m home t) (h : Stops m home t k j) :
    Reachable m home (update t (slot m home k j) (some k)) := by
  have hkeep : ∀ i, (t i).isSome → (Function.update t (slot m home k j) (some k) i).isSome := by
    intro i hi
    by_cases heq : i = slot m home k j
    · rw [heq, update_self]
      rfl
    · rwa [update_of_ne heq]
  intro i hi k' hk'
  by_cases heq : i = slot m home k j
  · rw [heq, update_self] at hk'
    cases hk'
    refine ⟨j, h.lt, heq.symm, fun l hl => hkeep _ ?_⟩
    exact Option.isSome_iff_ne_none.mpr (h.before l hl).1
  · rw [update_of_ne heq] at hk'
    obtain ⟨j', hj', hslot, hbefore⟩ := ht i hi k' hk'
    exact ⟨j', hj', hslot, fun l hl => hkeep _ (hbefore l hl)⟩

/-! ## Free slots -/

/-- The number of slots that are not free. -/
def used (m : ℕ) (t : ℕ → Option α) : ℕ := #{i ∈ range m | (t i).isSome}

theorem exists_free (h : used m t < m) : ∃ i < m, t i = none := by
  by_contra hall
  have hfull : {i ∈ range m | (t i).isSome} = range m := by
    apply filter_true_of_mem
    intro i hi
    apply Option.isSome_iff_ne_none.mpr
    exact fun hnone => hall ⟨i, mem_range.mp hi, hnone⟩
  rw [used, hfull, card_range] at h
  exact lt_irrefl m h

theorem used_update (hi : i < m) (hnone : t i = none) :
    used m (update t i (some k)) = used m t + 1 := by
  have hinsert : {x ∈ range m | (update t i (some k) x).isSome} =
      insert i {x ∈ range m | (t x).isSome} := by
    ext x
    by_cases hx : x = i
    · simp [hx, hi]
    · simp [hx]
  have hnot : i ∉ ({x ∈ range m | (t x).isSome} : Finset ℕ) := by simp [hnone]
  rw [used, hinsert, card_insert_of_notMem hnot, used]

end LinearProbing
