/-
# Whole matrices

What `clear`, `iszero`, `copy`, `add_inplace` and `mul` do, for all kinds of views.
-/

import Mathlib.Algebra.BigOperators.Intervals
import TvRQ.Algebra.MvView
import TvRQ.Lib.TableLoop

namespace TvRQ

open Imperative Heap Finset MvGen MvGenAll

namespace HeapView

variable {V α E F : Type} [Field F] [Zero E] [One E] [MvGenAll V (Heap α) E] [HeapView V α E F]
  {A B out : V} {h : Heap α} {S T R : Table F}

/-- All entries become zero. -/
theorem clear_ends (hout : Holds out h R) :
    Ends (clear out) h fun _ h' => Holds out h' (fun _ _ => 0) ∧ AgreeOff (cells out) h h' := by
  let T : ℕ → Table F := fun k i j => if i < k then 0 else R i j
  refine (forRange_ends (fun k h' => Holds out h' (T k) ∧ AgreeOff (cells out) h h')
    (Nat.zero_le (nRow out)) (fun k h₁ _ hk hI => ?_) ?_).mono fun _ h' hpost => ?_
  · apply (clearRow_ends hI.1 hk).mono
    rintro _ h₂ ⟨hT, hagree⟩
    refine ⟨holds_congr hT fun i _ j _ => ?_, hI.2.trans hagree⟩
    by_cases hi : i = k
    · simp [Table.clearRow, T, hi]
    · have hiff : i < k + 1 ↔ i < k := by omega
      simp only [Table.clearRow, T, if_neg hi, hiff]
  · exact ⟨holds_congr hout fun i _ j _ => (if_neg (Nat.not_lt_zero i)).symm, AgreeOff.refl _ h⟩
  · exact ⟨holds_congr hpost.1 fun i hi j _ => if_pos hi, hpost.2⟩

/-- The search for a row that is not zero ends at the first one. -/
theorem iszero_ends (hA : Holds A h S) (hpos : 0 < nCol A) :
    Ends (MvMatrix.iszero A) h fun zero h' =>
      (zero = true ↔ ∀ r < nRow A, ∀ c < nCol A, S r c = 0) ∧ h' = h := by
  have hsearch : Ends (findRange 0 (nRow A) fun r => do
      let zero ← rowIszero A r
      pure (if zero then none else some ())) h
        (onHit (fun h' => h' = h ∧ ∀ r < nRow A, ∀ c < nCol A, S r c = 0) fun _ h' =>
          h' = h ∧ ¬ ∀ r < nRow A, ∀ c < nCol A, S r c = 0) := by
    refine findRange_ends (fun k h' => h' = h ∧ ∀ r < k, ∀ c < nCol A, S r c = 0) _
      (Nat.zero_le _) ?_ ⟨rfl, fun r hr => absurd hr (Nat.not_lt_zero r)⟩
    rintro r h' - hr ⟨rfl, hbefore⟩
    apply (rowIszero_ends hA hr hpos).bind
    rintro zero h'' ⟨hzero, rfl⟩
    cases zero with
    | true =>
        refine ends_pure.mpr ⟨rfl, fun k hk => ?_⟩
        rcases Nat.lt_succ_iff_lt_or_eq.mp hk with hlt | rfl
        · exact hbefore k hlt
        · exact hzero.mp rfl
    | false => exact ends_pure.mpr ⟨rfl, fun hall => Bool.false_ne_true (hzero.mpr (hall r hr))⟩
  unfold MvMatrix.iszero
  apply hsearch.bind
  rintro hit h' hpost
  cases hit with
  | none =>
      obtain ⟨rfl, hall⟩ := hpost
      exact ends_pure.mpr ⟨⟨fun _ => hall, fun _ => rfl⟩, rfl⟩
  | some _ =>
      obtain ⟨rfl, hnot⟩ := hpost
      refine ends_pure.mpr ⟨⟨fun h => absurd h Bool.false_ne_true, fun hall => ?_⟩, rfl⟩
      exact absurd hall hnot

/-- Every row is copied. -/
theorem copy_ends (hA : Holds A h S) (hout : Holds out h R)
    (hdisj : Disjoint (cells out) (cells A)) (hrow : nRow A = nRow out)
    (hcol : nCol A = nCol out) :
    Ends (MvMatrix.copy A out) h fun _ h' => Holds out h' S ∧ AgreeOff (cells out) h h' := by
  unfold MvMatrix.copy
  rw [ends_bind, ends_ensure, ends_bind, ends_ensure]
  refine ⟨hrow, hcol, ?_⟩
  apply (rowsLoop_ends (R := fun g D => Holds out g D ∧ AgreeOff (cells out) h g) S
    ⟨hout, AgreeOff.refl _ h⟩ fun k g D hk _ hD => ?_).mono
  · rintro _ h' ⟨hD, hagree⟩
    exact ⟨holds_congr hD fun i hi j _ => by rw [if_pos (hrow ▸ hi)], hagree⟩
  · apply (copyRow_ends hD.1 (holds_agreeOff hA hD.2 hdisj) (Or.inr hdisj) hcol hk
      (hrow ▸ hk)).mono
    rintro _ g' ⟨hD', hagree⟩
    refine ⟨_, ⟨hD', hD.2.trans hagree⟩, funext fun j => if_pos rfl, fun i hi => ?_⟩
    exact funext fun j => if_neg hi

/-- Every row is added. -/
theorem addInplace_ends (hA : Holds A h S) (hout : Holds out h R)
    (hdisj : Disjoint (cells out) (cells A)) (hrow : nRow A = nRow out)
    (hcol : nCol A = nCol out) :
    Ends (MvMatrix.addInplace A out) h fun _ h' =>
      Holds out h' (fun i j => R i j + S i j) ∧ AgreeOff (cells out) h h' := by
  unfold MvMatrix.addInplace
  rw [ends_bind, ends_ensure, ends_bind, ends_ensure]
  refine ⟨hrow, hcol, ?_⟩
  apply (rowsLoop_ends (R := fun g D => Holds out g D ∧ AgreeOff (cells out) h g)
    (fun i j => R i j + S i j) ⟨hout, AgreeOff.refl _ h⟩ fun k g D hk hold hD => ?_).mono
  · rintro _ h' ⟨hD, hagree⟩
    exact ⟨holds_congr hD fun i hi j _ => by rw [if_pos hi], hagree⟩
  · rw [← el_one (V := V)]
    apply (multaddRow_ends hD.1 (holds_agreeOff hA hD.2 hdisj) (Or.inr hdisj) hcol
      (hrow ▸ hk) hk 1).mono
    rintro _ g' ⟨hD', hagree⟩
    rw [Table.multaddRowFrom_zero] at hD'
    refine ⟨_, ⟨hD', hD.2.trans hagree⟩, ?_, fun i hi => Table.addRow_of_ne D _ hi⟩
    funext j
    rw [Table.addRow_self, hold k le_rfl, one_mul]

/-- One entry of a product. -/
theorem mulEntry_ends (hA : Holds A h S) (hB : Holds B h T) (hdim : nCol A = nRow B) {i j : ℕ}
    (hi : i < nRow A) (hj : j < nCol B) :
    Ends (MvMatrix.mulEntry A B i j) h fun x h' =>
      x = el V (∑ e ∈ range (nCol A), S i e * T e j) ∧ h' = h := by
  unfold MvMatrix.mulEntry
  apply foldRange_ends (fun k x h' => x = el V (∑ e ∈ range k, S i e * T e j) ∧ h' = h)
    (Nat.zero_le _)
  · rintro k _ h' - hk ⟨rfl, rfl⟩
    rw [ends_bind, getEl_iff hA hi hk, ends_bind, getEl_iff hB (hdim ▸ hk) hj, ends_bind,
      ends_embed]
    refine ⟨_, fmul_eq _ _, ends_pure.mpr ⟨?_, rfl⟩⟩
    rw [fadd_eq, sum_range_succ]
  · exact ⟨by rw [range_zero, sum_empty, el_zero], rfl⟩

/-- The product goes to a view apart from both factors. -/
theorem mul_ends (hA : Holds A h S) (hB : Holds B h T) (hout : Holds out h R)
    (hdisjA : Disjoint (cells out) (cells A)) (hdisjB : Disjoint (cells out) (cells B))
    (hdim : nCol A = nRow B) (hrow : nRow A = nRow out) (hcol : nCol B = nCol out) :
    Ends (MvMatrix.mul A B out) h fun _ h' =>
      Holds out h' (fun i j => ∑ e ∈ range (nCol A), S i e * T e j) ∧
        AgreeOff (cells out) h h' := by
  let Q : ℕ → ℕ → Table F := fun i j r c =>
    if r < i ∨ (r = i ∧ c < j) then ∑ e ∈ range (nCol A), S r e * T e c else R r c
  unfold MvMatrix.mul
  rw [ends_bind, ends_ensure, ends_bind, ends_ensure, ends_bind, ends_ensure]
  refine ⟨hdim, hrow, hcol, ?_⟩
  apply (forRange_ends (fun i h' => Holds out h' (Q i 0) ∧ AgreeOff (cells out) h h')
    (Nat.zero_le _) ?_ ?_).mono
  · rintro _ h' ⟨hQ, hagree⟩
    exact ⟨holds_congr hQ fun r hr c _ => if_pos (Or.inl hr), hagree⟩
  · rintro i h₁ - hi ⟨hQ, hagree⟩
    apply (forRange_ends (fun j h' => Holds out h' (Q i j) ∧ AgreeOff (cells out) h h')
      (Nat.zero_le _) ?_ ⟨hQ, hagree⟩).mono
    · rintro _ h₂ ⟨hQ', hagree'⟩
      refine ⟨holds_congr hQ' fun r _ c hc => ?_, hagree'⟩
      have hiff : (r < i ∨ (r = i ∧ c < nCol out)) ↔ (r < i + 1 ∨ (r = i + 1 ∧ c < 0)) := by omega
      simp only [Q, hiff]
    · rintro j h₂ - hj ⟨hQ', hagree'⟩
      apply (mulEntry_ends (holds_agreeOff hA hagree' hdisjA) (holds_agreeOff hB hagree' hdisjB)
        hdim (hrow ▸ hi) (hcol ▸ hj)).bind
      rintro x h₃ ⟨rfl, rfl⟩
      apply (setEl_ends hQ' hi hj _).mono
      rintro _ h₄ ⟨hQ'', hagree''⟩
      refine ⟨holds_congr hQ'' fun r _ c _ => ?_, hagree'.trans hagree''⟩
      by_cases hrc : r = i ∧ c = j
      · simp [Table.set, Q, hrc]
      · have hiff : (r < i ∨ (r = i ∧ c < j + 1)) ↔ (r < i ∨ (r = i ∧ c < j)) := by omega
        simp only [Table.set, if_neg hrc, Q, hiff]
  · exact ⟨holds_congr hout fun r _ c _ => by simp [Q], AgreeOff.refl _ h⟩

end HeapView

end TvRQ
