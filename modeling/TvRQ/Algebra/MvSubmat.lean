/-
# Parts of matrices

`copy_submat` copies entry by entry, so it also moves a part within one matrix,
over itself, as long as it moves towards the entries that were copied first.
-/

import TvRQ.Algebra.M2vView

namespace TvRQ

open Imperative Heap MvGen MvGenAll

namespace HeapView

variable {V α E F : Type} [Field F] [Zero E] [One E] [MvGenAll V (Heap α) E] [HeapView V α E F]
  {A out : V} {h : Heap α} {S R : Table F}

/-- The part is copied as it was and the rest of the target stays, also within one matrix
as long as no entry is written over before it is read. -/
theorem copySubmat_ends {ar ac tr tc n m : ℕ} (hA : Holds A h S) (hout : Holds out h R)
    (hpos : Disjoint (cells out) (cells A) ∨ (A = out ∧ S = R ∧
      (tr < ar ∨ (tr = ar ∧ tc ≤ ac) ∨ ar + n ≤ tr ∨ ac + m ≤ tc ∨ tc + m ≤ ac)))
    (har : ar + n ≤ nRow A) (hac : ac + m ≤ nCol A) (htr : tr + n ≤ nRow out)
    (htc : tc + m ≤ nCol out) :
    Ends (MvMatrix.copySubmat A ar ac n m out tr tc) h fun _ h' =>
      Holds out h' (R.patch tr tc n m (S.block ar ac)) ∧ AgreeOff (cells out) h h' := by
  let T : ℕ → ℕ → Table F := fun r c => R.patchBefore tr tc m r c (S.block ar ac)
  -- What is read next has not been written over, wherever it lies.
  have hread : ∀ r < n, ∀ c < m, ∀ h', Holds out h' (T r c) → AgreeOff (cells out) h h' →
      ∀ Q : E → Heap α → Prop, Q (el V (S (r + ar) (c + ac))) h' →
        Ends (getEl A (r + ar) (c + ac)) h' Q := by
    intro r hr c hc h' hT hagree Q hQ
    rcases hpos with hdisj | ⟨rfl, rfl, hahead⟩
    · exact (getEl_iff (holds_agreeOff hA hagree hdisj) (by omega) (by omega)).mpr hQ
    · rw [← S.patchBefore_ahead (S.block ar ac) hr hc hahead] at hQ
      exact (getEl_iff hT (by omega) (by omega)).mpr hQ
  unfold MvMatrix.copySubmat
  rw [ends_bind, ends_ensure, ends_bind, ends_ensure, ends_bind, ends_ensure, ends_bind,
    ends_ensure]
  refine ⟨har, hac, htr, htc, ?_⟩
  have hrows : Ends (forRange 0 n fun r => forRange 0 m fun c => do
      let v ← getEl A (r + ar) (c + ac)
      setEl out (r + tr) (c + tc) v) h fun _ h' =>
        Holds out h' (T n 0) ∧ AgreeOff (cells out) h h' := by
    refine forRange_ends (fun r h' => Holds out h' (T r 0) ∧ AgreeOff (cells out) h h')
      (Nat.zero_le n) (fun r h₁ _ hr hrow => ?_) ⟨?_, AgreeOff.refl _ h⟩
    · have hend : T r m = T (r + 1) 0 := R.patchBefore_row (S.block ar ac)
      rw [← hend]
      refine forRange_ends (fun c h' => Holds out h' (T r c) ∧ AgreeOff (cells out) h h')
        (Nat.zero_le m) (fun c h₂ _ hc hentry => ?_) hrow
      apply ends_bind.mpr
      apply hread r hr c hc h₂ hentry.1 hentry.2
      apply (setEl_ends hentry.1 (show r + tr < nRow out by omega)
        (show c + tc < nCol out by omega) _).mono
      rintro _ h₃ ⟨hset, hagree⟩
      have hnext : T r (c + 1) = (T r c).set (r + tr) (c + tc) (S (r + ar) (c + ac)) := by
        rw [Nat.add_comm r ar, Nat.add_comm c ac]
        exact (R.patchBefore_set (S.block ar ac) hc).symm
      exact ⟨hnext ▸ hset, hentry.2.trans hagree⟩
    · have hstart : T 0 0 = R := R.patchBefore_zero (S.block ar ac) tr tc m
      exact hstart.symm ▸ hout
  have hend : T n 0 = R.patch tr tc n m (S.block ar ac) :=
    R.patchBefore_all (S.block ar ac) tr tc m n
  exact hrows.mono fun _ h' hT => ⟨hend ▸ hT.1, hT.2⟩

end HeapView

namespace M2v

/-- Two rows of 34 entries, of which the last ones are in words of their own. -/
def submatWords : Array UInt32 := #[1, 2, 3, 1]

/-- The last four columns are moved to the front of the row above. -/
theorem copySubmat_ends_words :
    Ends (MvMatrix.copySubmat (view 2 34 ⟨0, 0⟩) 1 30 1 4 (view 2 34 ⟨0, 0⟩) 0 0)
      ⟨#[submatWords]⟩ fun _ h' =>
        (view 2 34 ⟨0, 0⟩).Holds h' ((rowMajor 34 submatWords).patch 0 0 1 4
          ((rowMajor 34 submatWords).block 1 30)) ∧
            AgreeOff (view 2 34 ⟨0, 0⟩).cells ⟨#[submatWords]⟩ h' :=
  have hA : (view 2 34 ⟨0, 0⟩).Holds ⟨#[submatWords]⟩ (rowMajor 34 submatWords) :=
    ⟨⟨by decide, by decide, by decide⟩, packs_view rfl (by decide)⟩
  HeapView.copySubmat_ends hA hA (Or.inr ⟨rfl, rfl, by decide⟩) (by decide) (by decide)
    (by decide) (by decide)

end M2v

end TvRQ
