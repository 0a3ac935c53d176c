/-
# Solving a system in two parts

The first rows of a matrix are eliminated on their own, without all columns
getting a pivot.  Back substitution then writes the pivot unknowns in terms of
the others, and what the rows below say about these others is a smaller system.
It has the columns without a pivot as its columns, and it has full column rank
exactly if the whole matrix has.
-/

import TvRQ.Lib.Factors

namespace Elimination

open Finset

variable {F : Type*} [Field F]

/-- The product with `B` is what the pivot unknowns owe to the others in the
equations of the upper factor `M`. -/
def Substitutes (M : Table F) (r m : ℕ) (B : Table F) : Prop :=
  ∀ i < r, ∀ e < m - r, ∑ j ∈ Ico i r, M i j * B j e = M i (r + e)

/-- The rows from `n` on after the first `r` unknowns are replaced with the help
of `B`, where `τ` lists the unknowns. -/
def remainder (A : Table F) (n r : ℕ) (τ : ℕ → ℕ) (B : Table F) : Table F := fun i e =>
  A (n + i) (τ (r + e)) - ∑ j ∈ range r, A (n + i) (τ j) * B j e

/-- The first rows of `X` together with what they owe to the `k` rows behind row `r`. -/
def leading (r k : ℕ) (B X : Table F) : Table F := fun j c =>
  X j c + ∑ e ∈ range k, B j e * X (r + e) c

theorem sum_Ico_split {f : ℕ → F} {k r m : ℕ} (hkr : k ≤ r) (hrm : r ≤ m) :
    ∑ j ∈ Ico k m, f j = ∑ j ∈ Ico k r, f j + ∑ e ∈ range (m - r), f (r + e) := by
  rw [← sum_Ico_consecutive f hkr hrm, sum_Ico_eq_sum_range f r m]

/-- An unknown is found from the leading part and the unknowns behind. -/
theorem eq_sub_of_leading {r k j c : ℕ} {B X W U : Table F}
    (hlead : leading r k B X j c = W j c) (hU : ∀ e < k, U e c = X (r + e) c) :
    X j c = W j c - ∑ e ∈ range k, B j e * U e c := by
  have hsum : ∑ e ∈ range k, B j e * U e c = ∑ e ∈ range k, B j e * X (r + e) c :=
    sum_congr rfl fun e he => by rw [hU e (mem_range.mp he)]
  rw [hsum, ← hlead, leading, add_sub_cancel_right]

/-- A product of a row with all of `X`, of which the rows behind row `r` are a product
with rows of `B`. -/
theorem sum_mul_leading (a : ℕ → F) (s : Finset ℕ) (r k : ℕ) (B X : Table F) (c : ℕ) :
    ∑ j ∈ s, a j * leading r k B X j c =
      ∑ j ∈ s, a j * X j c + ∑ e ∈ range k, (∑ j ∈ s, a j * B j e) * X (r + e) c := by
  simp only [leading, mul_add, sum_add_distrib, mul_sum, sum_mul]
  rw [sum_comm (s := range k)]
  simp only [mul_assoc]

/-- The upper factor does not tell `X` from its leading part. -/
theorem Substitutes.timesU_eq {M B : Table F} {r m : ℕ} (hB : Substitutes M r m B) (hrm : r ≤ m)
    (X : Table F) {k : ℕ} (hk : k < r) (c : ℕ) :
    timesU M m X k c = ∑ j ∈ Ico k r, M k j * leading r (m - r) B X j c := by
  rw [sum_mul_leading, timesU, sum_Ico_split hk.le hrm]
  congr 1
  apply sum_congr rfl
  intro e he
  rw [hB k hk e (mem_range.mp he)]

namespace Finished

variable {A B : Table F} {n m r q : ℕ} {t : State F}

/-- A row below is a product with the leading part and one with the rest. -/
theorem times_below (h : Finished A n m r q t) (B X : Table F) (i c : ℕ) :
    times A m X (n + i) c =
      ∑ j ∈ range r, A (n + i) (t.colperm j) * leading r (m - r) B (fun k => X (t.colperm k)) j c +
        times (remainder A n r t.colperm B) (m - r) (fun e => X (t.colperm (r + e))) i c := by
  have hrest : ∀ e ∈ range (m - r), A (n + i) (t.colperm (r + e)) * X (t.colperm (r + e)) c =
      (∑ j ∈ range r, A (n + i) (t.colperm j) * B j e) * X (t.colperm (r + e)) c +
        remainder A n r t.colperm B i e * X (t.colperm (r + e)) c := by
    intro e _
    rw [remainder, sub_mul, add_sub_cancel]
  calc
    times A m X (n + i) c
      = ∑ j ∈ range m, A (n + i) (t.colperm j) * X (t.colperm j) c :=
        (h.sum_colperm fun j => A (n + i) j * X j c).symm
    _ = ∑ j ∈ range r, A (n + i) (t.colperm j) * X (t.colperm j) c +
          ∑ e ∈ range (m - r), A (n + i) (t.colperm (r + e)) * X (t.colperm (r + e)) c := by
        simp only [range_eq_Ico]
        rw [sum_Ico_split (Nat.zero_le r) h.rank_le_cols, range_eq_Ico]
    _ = _ := by
        rw [sum_congr rfl hrest, sum_add_distrib, sum_mul_leading, times, add_assoc]

/-- Forward and back substitution of the first rows find the leading part. -/
theorem leading_eq (h : Finished A n m r q t) (hB : Substitutes t.mat r m B) {X Y Z W : Table F}
    {c : ℕ} (hsol : ∀ i < n, times A m X i c = Y i c)
    (hforward : ∀ i < r, Z i c + ∑ j ∈ range i, t.mat i j * Z j c = Y (t.rowperm i) c)
    (hback : ∀ i < r, ∑ j ∈ Ico i r, t.mat i j * W j c = Z i c) :
    ∀ j < r, leading r (m - r) B (fun k => X (t.colperm k)) j c = W j c := by
  have hupper := h.timesU_eq_forward (X := X) (Z := Z) (c := c) fun i hi => by
    rw [hforward i hi, hsol _ (h.rowperm_lt.mpr (hi.trans_le h.rank_le_rows))]
  refine back_unique (M := t.mat) h.diag (fun i hi => ?_) hback
  rw [← hB.timesU_eq h.rank_le_cols _ hi, hupper i hi]

/-- What the rows below say about the unknowns without a pivot. -/
theorem remainder_solves (h : Finished A n m r q t) {X Y W : Table F} {i c : ℕ}
    (hsol : times A m X (n + i) c = Y (n + i) c)
    (hlead : ∀ j < r, leading r (m - r) B (fun k => X (t.colperm k)) j c = W j c) :
    times (remainder A n r t.colperm B) (m - r) (fun e => X (t.colperm (r + e))) i c =
      Y (n + i) c - ∑ j ∈ range r, A (n + i) (t.colperm j) * W j c := by
  rw [← hsol, h.times_below B]
  have hsum : ∀ j ∈ range r, A (n + i) (t.colperm j) *
      leading r (m - r) B (fun k => X (t.colperm k)) j c = A (n + i) (t.colperm j) * W j c := by
    intro j hj
    rw [hlead j (mem_range.mp hj)]
  rw [sum_congr rfl hsum, add_sub_cancel_left]

/-- A solution of the remainder extends to one of the whole system. -/
theorem times_extend (h : Finished A n m r q t) (hB : Substitutes t.mat r m B) {X : Table F} {c : ℕ}
    (hlead : ∀ j < r, leading r (m - r) B (fun k => X (t.colperm k)) j c = 0) {N : ℕ}
    (hrest : ∀ i < N - n,
      times (remainder A n r t.colperm B) (m - r) (fun e => X (t.colperm (r + e))) i c = 0) :
    ∀ i < N, times A m X i c = 0 := by
  intro i hi
  rcases lt_or_ge i n with hin | hin
  · have hzero : times A m (fun _ _ => 0) i c = 0 := by simp [times]
    rw [← hzero]
    refine h.times_congr (fun k hk => ?_) hin
    rw [hB.timesU_eq h.rank_le_cols _ hk]
    simp only [timesU, mul_zero, sum_const_zero]
    exact sum_eq_zero fun j hj => by rw [hlead j (mem_Ico.mp hj).2, mul_zero]
  · obtain ⟨e, rfl⟩ := Nat.exists_eq_add_of_le hin
    rw [h.times_below B, hrest e (by omega), add_zero]
    exact sum_eq_zero fun j hj => by rw [hlead j (mem_range.mp hj), mul_zero]

/-- The whole matrix has full column rank exactly if the remainder has. -/
theorem remainder_rank_iff (h : Finished A n m r q t) (hB : Substitutes t.mat r m B) {N : ℕ}
    (hn : n ≤ N) :
    ((remainder A n r t.colperm B).toMatrix (N - n) (m - r)).rank = m - r ↔
      (A.toMatrix N m).rank = m := by
  rw [Table.rank_eq_iff, Table.rank_eq_iff]
  constructor
  · intro hfull x hx
    have hlead := h.leading_eq hB (X := fun j _ => x j) (Y := fun _ _ => 0) (Z := fun _ _ => 0)
      (W := fun _ _ => 0) (c := 0) (fun i hi => hx i (hi.trans_le hn)) (by simp) (by simp)
    have htail : ∀ e < m - r, x (t.colperm (r + e)) = 0 := by
      refine hfull (fun e => x (t.colperm (r + e))) fun i hi => ?_
      have hbelow : times A m (fun j _ => x j) (n + i) 0 = 0 := hx (n + i) (by omega)
      have hsol := h.remainder_solves (Y := fun _ _ => 0) (W := fun _ _ => 0) hbelow hlead
      simpa [times] using hsol
    intro j hj
    obtain ⟨k, rfl⟩ := t.colperm.surjective j
    have hk : k < m := h.colperm_lt.mp hj
    rcases lt_or_ge k r with hkr | hkr
    · have hzero : ∑ e ∈ range (m - r), B k e * x (t.colperm (r + e)) = 0 :=
        sum_eq_zero fun e he => by rw [htail e (mem_range.mp he), mul_zero]
      have hleadk := hlead k hkr
      rwa [leading, hzero, add_zero] at hleadk
    · obtain ⟨e, rfl⟩ := Nat.exists_eq_add_of_le hkr
      exact htail e (by omega)
  · intro hfull v hv e he
    let u : ℕ → F := fun k => if k < r then -∑ e ∈ range (m - r), B k e * v e else v (k - r)
    have hu : ∀ k, (fun j _ => u (t.colperm.symm j) : Table F) (t.colperm k) 0 = u k := fun k => by
      simp
    have htail : ∀ e, u (r + e) = v e := fun e => by simp [u]
    have hx := h.times_extend hB (X := fun j _ => u (t.colperm.symm j)) (c := 0) (N := N)
      (fun j hj => by simp [leading, htail, u, hj]) fun i hi => by
        simpa [times, htail] using hv i hi
    have hzero := hfull _ hx (t.colperm (r + e)) (h.colperm_lt.mpr (by omega))
    rw [← htail e, ← hu (r + e)]
    exact hzero

end Finished

end Elimination
