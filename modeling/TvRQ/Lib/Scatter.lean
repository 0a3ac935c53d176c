/-
# Adding up at listed places

A list of places, each a row and a column number, says what is added to which
sum.  If no place is listed twice and all columns exist, the sums are the
product of the matrix that has ones at these places with what is added up.
-/

import Mathlib.Algebra.BigOperators.Group.Finset.Piecewise
import Mathlib.Data.List.Nodup
import Mathlib.Tactic.Abel

namespace Scatter

open Finset

variable {V ι : Type*} [AddCommMonoid V] {C D D' : ℕ → V} {s : ℕ}

/-- Add `x` to sum `r`. -/
def addAt (D : ℕ → V) (r : ℕ) (x : V) : ℕ → V := fun s => if s = r then D s + x else D s

/-- Add what the column of a place has to the sum of its row, place after place. -/
def scatter (C : ℕ → V) (places : List (ℕ × ℕ)) (D : ℕ → V) : ℕ → V :=
  places.foldl (fun D x => addAt D x.1 (C x.2)) D

theorem scatter_cons (x : ℕ × ℕ) (places : List (ℕ × ℕ)) :
    scatter C (x :: places) D = scatter C places (addAt D x.1 (C x.2)) := rfl

theorem scatter_append (l₁ l₂ : List (ℕ × ℕ)) :
    scatter C (l₁ ++ l₂) D = scatter C l₂ (scatter C l₁ D) :=
  List.foldl_append

theorem scatter_flatMap (l : List ι) (f : ι → List (ℕ × ℕ)) :
    scatter C (l.flatMap f) D = l.foldl (fun D i => scatter C (f i) D) D := by
  induction l generalizing D with
  | nil => rfl
  | cons i l ih => rw [List.flatMap_cons, scatter_append, ih, List.foldl_cons]

theorem addAt_comm (D : ℕ → V) (r₁ r₂ : ℕ) (x₁ x₂ : V) :
    addAt (addAt D r₁ x₁) r₂ x₂ = addAt (addAt D r₂ x₂) r₁ x₁ := by
  funext s
  simp only [addAt]
  split_ifs
  · abel
  all_goals rfl

/-- The order of the places makes no difference. -/
theorem scatter_perm {l₁ l₂ : List (ℕ × ℕ)} (h : l₁.Perm l₂) :
    scatter C l₁ D = scatter C l₂ D :=
  h.foldl_eq' (fun x _ y _ D => addAt_comm D x.1 y.1 (C x.2) (C y.2)) D

/-- A sum depends on where this sum starts. -/
theorem scatter_congr (places : List (ℕ × ℕ)) (h : D s = D' s) :
    scatter C places D s = scatter C places D' s := by
  induction places generalizing D D' with
  | nil => exact h
  | cons x places ih =>
      apply ih
      simp only [addAt, h]

/-- A sum is the product of a row of ones and zeros with what is added up. -/
theorem scatter_eq_sum {places : List (ℕ × ℕ)} {n : ℕ} (hnodup : places.Nodup)
    (hlt : ∀ x ∈ places, x.2 < n) :
    scatter C places D s = D s + ∑ c ∈ range n, if (s, c) ∈ places then C c else 0 := by
  induction places generalizing D with
  | nil => simp [scatter]
  | cons x places ih =>
      obtain ⟨hx, hnodup'⟩ := List.nodup_cons.mp hnodup
      have hsplit : ∀ c, (if (s, c) ∈ x :: places then C c else 0) =
          (if c = x.2 then (if s = x.1 then C c else 0) else 0) +
            if (s, c) ∈ places then C c else 0 := by
        intro c
        by_cases hc : (s, c) = x
        · subst hc
          simp [hx]
        · have hne : ¬ (c = x.2 ∧ s = x.1) := fun h => hc (Prod.ext h.2 h.1)
          rw [← ite_and, if_neg hne, zero_add]
          simp only [List.mem_cons, hc, false_or]
      have hhead : ∑ c ∈ range n, (if c = x.2 then (if s = x.1 then C c else 0) else 0) =
          if s = x.1 then C x.2 else 0 := by
        rw [sum_ite_eq' (range n) x.2 fun c => if s = x.1 then C c else 0,
          if_pos (mem_range.mpr (hlt x List.mem_cons_self))]
      rw [scatter_cons, ih hnodup' fun y hy => hlt y (List.mem_cons_of_mem x hy)]
      simp only [hsplit, sum_add_distrib, hhead, addAt]
      split_ifs
      · rw [add_assoc]
      · rw [zero_add]

end Scatter
