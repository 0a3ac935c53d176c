/-
# The LU decomposition refines elimination

`LU_decomp_inplace` is written once for all view types, and so is its proof.
`Lawful` lists what the operations of a view have to do to the table it holds;
the only law that may fail for some arguments is the one of
`multadd_row_from`, which holds for the column offsets in a given set.  When
every offset that the decomposition uses is in this set, the decomposition
runs to its end and does the rounds of `Elimination.Run`.

The field has characteristic two: the code adds multiples of the pivot row
where elimination subtracts them.
-/

import Mathlib.Algebra.CharP.Two
import TvRQ.Algebra.MvGeneric
import TvRQ.Lib.Elimination

namespace TvRQ

open Imperative Elimination

/-- The array lists the values of a permutation below its length. -/
structure Lists (xs : Array ℕ) (n : ℕ) (π : Equiv.Perm ℕ) : Prop where
  size_eq : xs.size = n
  get_eq : ∀ k < n, xs[k]? = some (π k)

theorem Lists.unique {xs ys : Array ℕ} {n : ℕ} {π : Equiv.Perm ℕ} (hxs : Lists xs n π)
    (hys : Lists ys n π) : xs = ys := by
  refine Array.ext_getElem? fun k => ?_
  by_cases hk : k < n
  · rw [hxs.get_eq k hk, hys.get_eq k hk]
  · rw [Array.getElem?_eq_none (by rw [hxs.size_eq]; omega),
      Array.getElem?_eq_none (by rw [hys.size_eq]; omega)]

theorem lists_range (n : ℕ) : Lists (Array.range n) n 1 where
  size_eq := Array.size_range
  get_eq := fun k hk => by simp [hk]

namespace MvGen

variable {V σ E F : Type} [MvGen V σ E] [Field F]

/-- The permutation arrays and the view stand for the elimination state `t`. -/
structure Represents (M : V) (R : σ → Table F → Prop) (perms : Array ℕ × Array ℕ)
    (t : State F) (s : σ) : Prop where
  rows : Lists perms.1 (nRow M) t.rowperm
  cols : Lists perms.2 (nCol M) t.colperm
  mat : R s t.mat

/-- The operations do to the table that `M` holds what their names say. -/
structure Lawful [Zero E] (M : V) (R : σ → Table F → Prop) (el : F → E)
    (offsets : Set ℕ) : Prop where
  congr : ∀ {s A B}, R s A →
    (∀ r < nRow M, ∀ c < nCol M, A r c = B r c) → R s B
  el_eq_zero : ∀ {v}, el v = 0 ↔ v = 0
  getEl_iff : ∀ {s A r c} {Q : E → σ → Prop}, R s A → r < nRow M → c < nCol M →
    (Ends (getEl M r c) s Q ↔ Q (el (A r c)) s)
  swapRows_ends : ∀ {s A r₁ r₂}, R s A → r₁ < nRow M → r₂ < nRow M →
    Ends (swapRows M r₁ r₂) s fun _ s' => R s' (A.swapRows r₁ r₂)
  swapCols_ends : ∀ {s A c₁ c₂}, R s A → 0 < nRow M → c₁ < nCol M → c₂ < nCol M →
    Ends (swapCols M c₁ c₂) s fun _ s' => R s' (A.swapCols c₁ c₂)
  finv_eq : ∀ {v}, v ≠ 0 → finv V (el v) = .ok (el v⁻¹)
  multColFrom_ends : ∀ {s A c offs α}, R s A → c < nCol M → offs ≤ nRow M → α ≠ 0 →
    Ends (multColFrom M c offs (el α)) s fun _ s' => R s' (A.multColFrom c offs α)
  multaddRowFrom_ends : ∀ {s A r offs α t}, R s A → r < nRow M → t < nRow M → r ≠ t →
    offs ≤ nCol M → offs ∈ offsets →
    Ends (multaddRowFrom M r offs (el α) M t) s fun _ s' =>
      R s' (Table.multaddRowFrom A r offs α A t)

theorem swap_self_mul (π : Equiv.Perm ℕ) (a : ℕ) : π * Equiv.swap a a = π := by
  rw [Equiv.swap_self]
  exact mul_one π

/-- Exchanging two members of an array composes its permutation with a swap. -/
theorem swapInt_ends {n a b : ℕ} {xs : Array ℕ} {π : Equiv.Perm ℕ} (hxs : Lists xs n π)
    (ha : a < n) (hb : b < n) (s : σ) :
    Ends (swapInt xs a b) s fun ys s' => Lists ys n (π * Equiv.swap a b) ∧ s' = s := by
  simp only [swapInt, ends_bind, ends_readArray, ends_writeArray, Array.size_setIfInBounds,
    hxs.size_eq, and_true]
  refine ⟨_, hxs.get_eq b hb, _, hxs.get_eq a ha, hb, ha, by simp [hxs.size_eq], ?_⟩
  intro k hk
  by_cases hka : k = a
  · simp [hka, hxs.size_eq, ha]
  · rw [Array.getElem?_setIfInBounds_ne (Ne.symm hka)]
    by_cases hkb : k = b
    · simp [hkb, hxs.size_eq, hb]
    · rw [Array.getElem?_setIfInBounds_ne (Ne.symm hkb), hxs.get_eq k hk]
      simp [Equiv.swap_apply_of_ne_of_ne hka hkb]

namespace Lawful

variable [Zero E] {M : V} {R : σ → Table F → Prop} {el : F → E}
  {offsets : Set ℕ} {s : σ} {A : Table F} {i : ℕ}

theorem pivotRow_ends (hM : Lawful M R el offsets) (hA : R s A) {prow : ℕ} (hi : i < nRow M)
    (hp : prow < nRow M) {rp : Array ℕ} {π : Equiv.Perm ℕ} (hrp : Lists rp (nRow M) π) :
    Ends (pivotRow M i prow rp) s fun rp' s' =>
      Lists rp' (nRow M) (π * Equiv.swap i prow) ∧ R s' (A.swapRows i prow) := by
  unfold pivotRow
  split_ifs with hne
  · refine (swapInt_ends hrp hi hp s).bind fun rp' s' hpost => ?_
    obtain ⟨hlists, rfl⟩ := hpost
    refine (hM.swapRows_ends hA hi hp).bind fun _ s'' hpost' => ?_
    exact ends_pure.mpr ⟨hlists, hpost'⟩
  · rw [not_not] at hne
    subst hne
    exact ends_pure.mpr ⟨by rwa [swap_self_mul], by simpa using hA⟩

theorem pivotCol_ends (hM : Lawful M R el offsets) (hA : R s A) {pcol : ℕ} (hrow : 0 < nRow M)
    (hi : i < nCol M) (hp : pcol < nCol M) {cp : Array ℕ} {π : Equiv.Perm ℕ}
    (hcp : Lists cp (nCol M) π) :
    Ends (pivotCol M i pcol cp) s fun cp' s' =>
      Lists cp' (nCol M) (π * Equiv.swap i pcol) ∧ R s' (A.swapCols i pcol) := by
  unfold pivotCol
  split_ifs with hne
  · refine (swapInt_ends hcp hi hp s).bind fun cp' s' hpost => ?_
    obtain ⟨hlists, rfl⟩ := hpost
    refine (hM.swapCols_ends hA hrow hp hi).bind fun _ s'' hpost' => ?_
    refine ends_pure.mpr ⟨hlists, ?_⟩
    have hcomm : A.swapCols pcol i = A.swapCols i pcol := by
      unfold Table.swapCols
      rw [Equiv.swap_comm]
    rwa [hcomm] at hpost'
  · rw [not_not] at hne
    subst hne
    exact ends_pure.mpr ⟨by rwa [swap_self_mul], by simpa using hA⟩

/-- One column of the lower factor and the update behind it are one elimination. -/
theorem eliminateBelow_ends [CharP F 2] (hM : Lawful M R el offsets) (hA : R s A)
    (hrow : i < nRow M) (hcol : i < nCol M) (hii : A i i ≠ 0)
    (hoffs : i + 1 < nRow M → i + 1 ∈ offsets) :
    Ends (eliminateBelow M i) s fun _ s' => R s' (eliminate A i) := by
  unfold eliminateBelow
  rw [ends_bind, hM.getEl_iff hA hrow hcol, hM.finv_eq hii]
  simp only [ends_bind, ends_embed]
  refine ⟨_, rfl, (hM.multColFrom_ends hA hcol hrow (inv_ne_zero hii)).mono fun _ s₁ h₁ => ?_⟩
  let T : ℕ → Table F := fun k r c =>
    if r < k then eliminate A i r c else A.multColFrom i (i + 1) (A i i)⁻¹ r c
  have hstep : ∀ k, i < k → ∀ r c,
      Table.multaddRowFrom (T k) i (i + 1) (A k i / A i i) (T k) k r c = T (k + 1) r c := by
    intro k hk r c
    have hpivotRow : T k i c = A i c := by simp [T, hk, eliminate]
    by_cases hr : r = k
    · subst hr
      rcases Nat.lt_or_ge i c with hc | hc
      · have hsub : A r c - A r i / A i i * A i c = A r c + A r i / A i i * A i c :=
          CharTwo.sub_eq_add _ _
        simp only [Table.multaddRowFrom, hpivotRow]
        simp [T, Table.multColFrom, eliminate, hc.ne', hk.not_ge, hc.not_gt, hsub,
          Nat.succ_le_of_lt hc]
      · have hno : ¬ (i + 1 ≤ c) := by omega
        simp [Table.multaddRowFrom, T, hno, eliminate_of_le A hc]
    · have hiff : r < k + 1 ↔ r < k := by omega
      simp [Table.multaddRowFrom, T, hr, hiff]
  refine (forRange_ends (fun k s' => R s' (T k)) (Nat.succ_le_of_lt hrow)
    (fun k s' hlo hhi hT => ?_) (hM.congr h₁ fun r _ c _ => ?_)).mono
    fun _ s' hT => hM.congr hT fun r hr c _ => by simp [T, hr]
  · have hik : i < k := hlo
    have hlji : T k k i = A k i / A i i := by
      simp [T, Table.multColFrom, hik, div_eq_inv_mul]
    rw [ends_bind, hM.getEl_iff hT hhi hcol, hlji]
    refine (hM.multaddRowFrom_ends hT hrow hhi (by omega) hcol (hoffs (by omega))).mono
      fun _ s'' hpost => hM.congr hpost fun r _ c _ => hstep k hlo r c
  · by_cases hr : r < i + 1
    · have hno : ¬ (i + 1 ≤ r) := by omega
      simp [T, hr, Table.multColFrom, eliminate, hno, Nat.le_of_lt_succ hr]
    · simp [T, hr]

variable [DecidableEq E]

/-- The search ends at the first nonzero entry of the block, column by column. -/
theorem findPivot_ends (hM : Lawful M R el offsets) (hA : R s A) (hrow : i ≤ nRow M)
    (hcol : i ≤ nCol M) :
    Ends (findPivot M i) s
      (onHit (fun s' => s' = s ∧ BlockZero A (nRow M) (nCol M) i)
        fun p s' => s' = s ∧ IsPivot A (nRow M) (nCol M) i p.1 p.2) := by
  refine (findRange_ends
    (fun c s' => s' = s ∧ ∀ c', i ≤ c' → c' < c → ∀ r, i ≤ r → r < nRow M → A r c' = 0)
    (fun p s' => s' = s ∧ IsPivot A (nRow M) (nCol M) i p.1 p.2) hcol ?_
    ⟨rfl, fun c' hlo hhi => absurd hlo (not_le.mpr hhi)⟩).mono fun hit s' hpost => ?_
  · rintro c s' hlo hhi ⟨rfl, hleft⟩
    refine (findRange_ends
      (fun r s'' => s'' = s' ∧ ∀ r', i ≤ r' → r' < r → A r' c = 0)
      (fun p s'' => s'' = s' ∧ IsPivot A (nRow M) (nCol M) i p.1 p.2) hrow ?_
      ⟨rfl, fun r' hlo' hhi' => absurd hlo' (not_le.mpr hhi')⟩).mono fun hit s'' hpost => ?_
    · rintro r s'' hrlo hrhi ⟨rfl, habove⟩
      rw [ends_bind, hM.getEl_iff hA hrhi hhi, ends_pure]
      by_cases hzero : A r c = 0
      · rw [if_neg (not_not.mpr (hM.el_eq_zero.mpr hzero))]
        refine ⟨rfl, fun r' hlo' hhi' => ?_⟩
        rcases Nat.lt_succ_iff_lt_or_eq.mp hhi' with hlt | rfl
        · exact habove r' hlo' hlt
        · exact hzero
      · rw [if_pos fun heq => hzero (hM.el_eq_zero.mp heq)]
        exact ⟨rfl, ⟨hrlo, hrhi, hlo, hhi, hzero, habove, hleft⟩⟩
    · cases hit with
      | some p => exact hpost
      | none =>
          refine ⟨hpost.1, fun c' hlo' hhi' r hr hrn => ?_⟩
          rcases Nat.lt_succ_iff_lt_or_eq.mp hhi' with hlt | rfl
          · exact hleft c' hlo' hlt r hr hrn
          · exact hpost.2 r hr hrn
  · cases hit with
    | none => exact ⟨hpost.1, fun r c hr hrn hc hcm => hpost.2 c hc hcm r hr hrn⟩
    | some p => exact hpost

/-- One pass either finds the rest of the block zero or does one round. -/
theorem luRound_ends [CharP F 2] (hM : Lawful M R el offsets) {perms : Array ℕ × Array ℕ}
    {t : State F} (ht : Represents M R perms t s) (hrow : i < nRow M) (hcol : i < nCol M)
    (hoffs : i + 1 < nRow M → i + 1 ∈ offsets) :
    Ends (luRound M i perms) s
      (onHit (fun s' => s' = s ∧ BlockZero t.mat (nRow M) (nCol M) i) fun perms' s' =>
        ∃ prow pcol, IsPivot t.mat (nRow M) (nCol M) i prow pcol ∧
          Represents M R perms' (t.pivot i prow pcol) s') := by
  unfold luRound
  refine (hM.findPivot_ends ht.mat hrow.le hcol.le).bind fun hit s₁ hhit => ?_
  cases hit with
  | none => exact ends_pure.mpr hhit
  | some p =>
      obtain ⟨prow, pcol⟩ := p
      obtain ⟨rfl, hp⟩ := hhit
      refine (hM.pivotRow_ends ht.mat hrow hp.row_lt ht.rows).bind fun rp s₂ h₂ => ?_
      refine (hM.pivotCol_ends h₂.2 (by omega) hcol hp.col_lt ht.cols).bind fun cp s₃ h₃ => ?_
      have hne : (t.exchange i prow pcol).mat i i ≠ 0 := by
        simpa [State.exchange, Table.swapRows, Table.swapCols] using hp.ne_zero
      refine (hM.eliminateBelow_ends h₃.2 hrow hcol hne hoffs).bind fun _ s₄ h₄ => ?_
      exact ends_pure.mpr ⟨prow, pcol, hp, ⟨h₂.1, h₃.1, h₄⟩⟩

/-- The rounds before round `k`: either all were done, or the block was found
zero on the way.  What is left to do is a run that completes one from the start. -/
theorem rounds_ends [CharP F 2] (hM : Lawful M R el offsets) (hA : R s A) {k : ℕ}
    (hrow : k ≤ nRow M) (hcol : k ≤ nCol M)
    (hoffs : ∀ j < k, j + 1 < nRow M → j + 1 ∈ offsets) :
    Ends (breakRange 0 k (Array.range (nRow M), Array.range (nCol M)) (luRound M)) s
      fun out s' => ∃ t : State F, Represents M R out.2 t s' ∧ out.1 ≤ k ∧
        (out.1 < k → BlockZero t.mat (nRow M) (nCol M) out.1) ∧
        ∀ r t', Run (nRow M) (nCol M) out.1 t r t' →
          Run (nRow M) (nCol M) 0 (State.init A) r t' := by
  refine breakRange_ends
    (fun j perms s' => ∃ t : State F, Represents M R perms t s' ∧
      ∀ r t', Run (nRow M) (nCol M) j t r t' → Run (nRow M) (nCol M) 0 (State.init A) r t')
    (fun j perms s' => ∃ t : State F, Represents M R perms t s' ∧ j ≤ k ∧
      (j < k → BlockZero t.mat (nRow M) (nCol M) j) ∧
      ∀ r t', Run (nRow M) (nCol M) j t r t' → Run (nRow M) (nCol M) 0 (State.init A) r t')
    (Nat.zero_le k) ?_ ?_ ?_
  · rintro j perms s₁ - hj ⟨t, ht, hrun⟩
    refine (hM.luRound_ends ht (hj.trans_le hrow) (hj.trans_le hcol) (hoffs j hj)).mono
      fun next s₂ hnext => ?_
    cases next with
    | none =>
        obtain ⟨rfl, hzero⟩ := hnext
        exact ⟨t, ht, hj.le, fun _ => hzero, hrun⟩
    | some perms' =>
        obtain ⟨prow, pcol, hp, ht'⟩ := hnext
        exact ⟨_, ht', fun r t' hrest => hrun r t' (Run.step hp hrest)⟩
  · rintro perms s₁ ⟨t, ht, hrun⟩
    exact ⟨t, ht, le_rfl, fun hlt => absurd hlt (lt_irrefl k), hrun⟩
  · exact ⟨State.init A, ⟨lists_range _, lists_range _, hA⟩, fun _ _ h => h⟩

/-- The decomposition does the rounds of an elimination run. -/
theorem luDecompInplace_ends [CharP F 2] (hM : Lawful M R el offsets) (hA : R s A)
    (hoffs : ∀ j < min (nCol M) (nRow M), j + 1 < nRow M → j + 1 ∈ offsets) :
    Ends (luDecompInplace M) s fun out s' => ∃ t : State F,
      Run (nRow M) (nCol M) 0 (State.init A) out.1 t ∧ Represents M R out.2 t s' := by
  refine (hM.rounds_ends hA (Nat.min_le_right _ _) (Nat.min_le_left _ _) hoffs).mono
    fun out s' hpost => ?_
  obtain ⟨t, ht, hle, hzero, hrun⟩ := hpost
  refine ⟨t, hrun _ _ (Run.stop ?_), ht⟩
  rcases hle.lt_or_eq with hlt | heq
  · exact hzero hlt
  · intro r c hr hrn hc hcm
    omega

end Lawful

end MvGen

end TvRQ
