/-
# Loops that change a table step by step

A counted loop that replaces one entry of a column in each pass replaces the
column, one that exchanges two entries of a row in each pass exchanges two
columns, and one that adds to a row in each pass adds the sum of what it adds.
What it means for a state to hold a table is a parameter.
-/

import Mathlib.Algebra.BigOperators.Intervals
import TvRQ.Lib.Prog
import TvRQ.Lib.Table

namespace Imperative

variable {σ F : Type} {R : σ → Table F → Prop} {n m : ℕ}

/-- A loop over row numbers whose pass replaces one entry of column `c`. -/
theorem colLoop_ends (hcongr : ∀ {s A B}, R s A → (∀ r < n, ∀ c < m, A r c = B r c) → R s B)
    {offs c : ℕ} (hoffs : offs ≤ n) {body : ℕ → Prog σ Unit} (f : ℕ → F) {s : σ} {A : Table F}
    (hA : R s A)
    (hbody : ∀ i s₁ T, offs ≤ i → i < n → R s₁ T → T i = A i →
      Ends (body i) s₁ fun _ s₂ => R s₂ (T.set i c (f i))) :
    Ends (forRange offs n body) s fun _ s' =>
      R s' fun i j => if j = c ∧ offs ≤ i then f i else A i j := by
  let T : ℕ → Table F := fun k i j => if j = c ∧ offs ≤ i ∧ i < k then f i else A i j
  refine (forRange_ends (fun k s' => R s' (T k)) hoffs (fun k s₁ hlo hk hI => ?_) ?_).mono
    fun _ s' hpost => hcongr hpost fun i hi j _ => ?_
  · have hold : T k k = A k := by
      funext j
      simp [T]
    refine (hbody k s₁ (T k) hlo hk hI hold).mono fun _ s₂ hstep => hcongr hstep fun i _ j _ => ?_
    by_cases heq : i = k ∧ j = c
    · obtain ⟨rfl, rfl⟩ := heq
      simp [Table.set, T, hlo]
    · have hiff : (j = c ∧ offs ≤ i ∧ i < k + 1) ↔ (j = c ∧ offs ≤ i ∧ i < k) := by omega
      simp only [Table.set, if_neg heq, T, hiff]
  · refine hcongr hA fun i _ j _ => ?_
    have hempty : ¬ (j = c ∧ offs ≤ i ∧ i < offs) := by omega
    simp only [T, if_neg hempty]
  · have hiff : (j = c ∧ offs ≤ i ∧ i < n) ↔ (j = c ∧ offs ≤ i) := by omega
    simp only [T, hiff]

/-- A loop over row numbers whose pass replaces its row and leaves the others alone. -/
theorem rowsLoop_ends {hi : ℕ} {body : ℕ → Prog σ Unit} {s : σ} {A : Table F} (f : Table F)
    (hA : R s A)
    (hbody : ∀ k s₁ D, k < hi → (∀ i, k ≤ i → D i = A i) → R s₁ D →
      Ends (body k) s₁ fun _ s₂ => ∃ D', R s₂ D' ∧ D' k = f k ∧ ∀ i ≠ k, D' i = D i) :
    Ends (forRange 0 hi body) s fun _ s' => R s' fun i => if i < hi then f i else A i := by
  refine forRange_ends (fun k s' => R s' fun i => if i < k then f i else A i) (Nat.zero_le hi)
    (fun k s₁ _ hk hI => ?_) (by simpa using hA)
  apply (hbody k s₁ _ hk (fun i hi => if_neg (not_lt.mpr hi)) hI).mono
  rintro _ s₂ ⟨D', hD', hself, hother⟩
  have hrows : D' = fun i => if i < k + 1 then f i else A i := by
    funext i
    rcases lt_trichotomy i k with hlt | rfl | hgt
    · rw [hother i hlt.ne, if_pos hlt, if_pos (Nat.lt_succ_of_lt hlt)]
    · rw [hself, if_pos (Nat.lt_succ_self i)]
    · rw [hother i hgt.ne', if_neg hgt.not_gt, if_neg (by omega)]
  rwa [← hrows]

/-- A loop over row numbers whose pass exchanges two entries of its row. -/
theorem swapColsLoop_ends
    (hcongr : ∀ {s A B}, R s A → (∀ r < n, ∀ c < m, A r c = B r c) → R s B) {c₁ c₂ : ℕ}
    {body : ℕ → Prog σ Unit} {s : σ} {A : Table F} (hA : R s A)
    (hbody : ∀ k s₁ T, k < n → R s₁ T → Ends (body k) s₁ fun _ s₂ =>
      R s₂ ((T.set k c₁ (T k c₂)).set k c₂ (T k c₁))) :
    Ends (forRange 0 n body) s fun _ s' => R s' (A.swapCols c₁ c₂) := by
  refine (forRange_ends (fun k s' => R s' (A.swapColsBefore c₁ c₂ k)) (Nat.zero_le n)
    (fun k s₁ _ hk hI => ?_) (by simpa using hA)).mono fun _ s' hpost =>
      hcongr hpost fun i hi j _ => Table.swapColsBefore_of_lt A c₁ c₂ hi
  refine (hbody k s₁ _ hk hI).mono fun _ s₂ hpost => ?_
  rw [← Table.swapColsBefore_succ, ← Table.swapColsBefore_of_le A c₁ c₂ le_rfl,
    ← Table.swapColsBefore_of_le A c₁ c₂ le_rfl]
  exact hpost

section Sums

open Finset

variable [AddCommMonoid F] {E : Table F} {i lo hi : ℕ} {w : ℕ → ℕ → F} {body : ℕ → Prog σ Unit}
  {s : σ}

/-- A loop whose passes add to row `i`, where no pass needs this row. -/
theorem sumUp_ends (hbody : ∀ j s₁ D, lo ≤ j → j < hi → (∀ k ≠ i, D k = E k) → R s₁ D →
      Ends (body j) s₁ fun _ s₂ => R s₂ (D.addRow i (w j)))
    (hE : R s E) : Ends (forRange lo hi body) s fun _ s' =>
      R s' (E.addRow i fun c => ∑ j ∈ Ico lo hi, w j c) := by
  rcases le_total hi lo with hle | hle
  · rw [forRange_of_le hle, ends_pure]
    simpa only [Ico_eq_empty_of_le hle, sum_empty, Table.addRow_zero] using hE
  · refine forRange_ends (fun k s' => R s' (E.addRow i fun c => ∑ j ∈ Ico lo k, w j c)) hle
      (fun k s₁ hlo hk hI => ?_) ?_
    · refine (hbody k s₁ _ hlo hk (fun r hr => Table.addRow_of_ne E _ hr) hI).mono fun _ s₂ h => ?_
      simpa only [Table.addRow_addRow, sum_Ico_succ_top hlo] using h
    · simpa only [Ico_self, sum_empty, Table.addRow_zero] using hE

/-- The same with the passes in the opposite order. -/
theorem sumDown_ends (hbody : ∀ j s₁ D, lo ≤ j → j < hi → (∀ k ≠ i, D k = E k) → R s₁ D →
      Ends (body j) s₁ fun _ s₂ => R s₂ (D.addRow i (w j)))
    (hE : R s E) : Ends (forDown lo hi body) s fun _ s' =>
      R s' (E.addRow i fun c => ∑ j ∈ Ico lo hi, w j c) := by
  rcases le_total hi lo with hle | hle
  · rw [forDown_of_le hle, ends_pure]
    simpa only [Ico_eq_empty_of_le hle, sum_empty, Table.addRow_zero] using hE
  · refine forDown_ends (fun k s' => R s' (E.addRow i fun c => ∑ j ∈ Ico k hi, w j c)) hle
      (fun k s₁ hlo hk hI => ?_) ?_
    · refine (hbody k s₁ _ hlo hk (fun r hr => Table.addRow_of_ne E _ hr) hI).mono fun _ s₂ h => ?_
      simp only [Table.addRow_addRow] at h
      simpa only [sum_eq_sum_Ico_succ_bot hk, add_comm] using h
    · simpa only [Ico_self, sum_empty, Table.addRow_zero] using hE

end Sums

end Imperative
