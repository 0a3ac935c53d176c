/-
# What a finished elimination says about the matrix

The loop invariant of `Elimination.Run` and its consequences: the stored
factors multiply to the permuted matrix, the number of rounds is its rank, and
the pivot columns are the leftmost basis of its column space.

`Inv` is the loop invariant.  It carries the partial factorisation under both
permutations and the frontier: every column left of it is either a pivot
column or was rejected because it was zero in the whole remaining block.
-/

import TvRQ.Lib.Elimination

namespace Table

/-- Column `c` of the first `n` rows. -/
def column {F : Type*} (A : Table F) (n c : ℕ) : Fin n → F := fun i => A i c

/-- The matrix of the first `n` rows and `m` columns. -/
def toMatrix {F : Type*} (A : Table F) (n m : ℕ) : Matrix (Fin n) (Fin m) F :=
  Matrix.of fun i j => A i j

section Rank

open Finset

variable {F : Type*} [Field F]

theorem mulVec_toMatrix (A : Table F) (n m : ℕ) (x : ℕ → F) (i : Fin n) :
    (A.toMatrix n m).mulVec (fun j => x j) i = ∑ j ∈ range m, A i j * x j := by
  rw [← Fin.sum_univ_eq_sum_range (fun j => A i j * x j) m]
  rfl

/-- Full column rank means that only zero is orthogonal to all rows. -/
theorem rank_eq_iff (A : Table F) (n m : ℕ) : (A.toMatrix n m).rank = m ↔
    ∀ x : ℕ → F, (∀ i < n, ∑ j ∈ range m, A i j * x j = 0) → ∀ j < m, x j = 0 := by
  have hdim := LinearMap.finrank_range_add_finrank_ker (A.toMatrix n m).mulVecLin
  rw [Module.finrank_fin_fun] at hdim
  have hker : (A.toMatrix n m).rank = m ↔ LinearMap.ker (A.toMatrix n m).mulVecLin = ⊥ := by
    rw [← Submodule.finrank_eq_zero (R := F), Matrix.rank]
    omega
  rw [hker, LinearMap.ker_eq_bot']
  constructor
  · intro h x hx j hj
    have hzero := h (fun j => x j) (by
      ext i
      rw [Matrix.mulVecLin_apply, mulVec_toMatrix, hx i i.isLt]
      rfl)
    exact congrFun hzero ⟨j, hj⟩
  · intro h v hv
    have hx := h (fun j => if hj : j < m then v ⟨j, hj⟩ else 0) (fun i hi => by
      have hrow := congrFun hv ⟨i, hi⟩
      rw [← mulVec_toMatrix A n m _ ⟨i, hi⟩]
      simpa using hrow)
    ext j
    simpa using hx j j.isLt

/-- A matrix with an inverse has full rank. -/
theorem rank_eq_of_inverse {A B : Table F} {n : ℕ} (h : ∀ i < n, ∀ j < n,
    ∑ k ∈ range n, A i k * B k j = if i = j then 1 else 0) : (A.toMatrix n n).rank = n := by
  have hmul : A.toMatrix n n * B.toMatrix n n = 1 := by
    ext i j
    rw [Matrix.mul_apply, Matrix.one_apply]
    simp only [toMatrix, Matrix.of_apply, Fin.ext_iff]
    rw [Fin.sum_univ_eq_sum_range (fun k => A i k * B k j) n]
    exact h i i.isLt j j.isLt
  rw [Matrix.rank_of_isUnit _ (IsUnit.of_mul_eq_one _ hmul), Fintype.card_fin]

/-- More rows do not lower the rank. -/
theorem rank_eq_of_rows {A B : Table F} {n n' m : ℕ}
    (hrows : ∀ i < n, ∃ i' < n', ∀ c, B i' c = A i c) (h : (A.toMatrix n m).rank = m) :
    (B.toMatrix n' m).rank = m := by
  rw [rank_eq_iff] at h ⊢
  intro x hx
  refine h x fun i hi => ?_
  obtain ⟨i', hi', heq⟩ := hrows i hi
  rw [← hx i' hi']
  exact sum_congr rfl fun j _ => by rw [heq]

end Rank

end Table

namespace Elimination

open Finset

variable {F : Type*} [Field F]

/-- Column `k` of the lower factor, with its rows back in their old places. -/
def State.lowerColumn (t : State F) (n k : ℕ) : Fin n → F :=
  fun i => lower t.mat (t.rowperm.symm i) k

/-- The state before round `i` of an elimination of the `n × m` table `A`.
All columns left of the frontier `q` are decided: at positions below `i` stand
the pivot columns, at positions from `i` to `q` the rejected ones. -/
structure Inv (A : Table F) (n m i q : ℕ) (s : State F) : Prop where
  row_le : i ≤ n
  le_frontier : i ≤ q
  frontier_le : q ≤ m
  factor : ∀ r < n, ∀ c < m, A (s.rowperm r) (s.colperm c) = product s.mat i r c
  diag : ∀ k < i, s.mat k k ≠ 0
  rowperm_fix : ∀ r, n ≤ r → s.rowperm r = r
  colperm_fix : ∀ c, q ≤ c → s.colperm c = c
  pivot_lt : ∀ k < i, s.colperm k < q
  pivot_strict : ∀ j k, j < k → k < i → s.colperm j < s.colperm k
  rejected : ∀ r c, i ≤ r → r < n → i ≤ c → c < q → s.mat r c = 0
  skipped : ∀ k c, k < i → i ≤ c → c < q → s.colperm c < s.colperm k → s.mat k c = 0

theorem Inv.init (A : Table F) (n m : ℕ) : Inv A n m 0 0 (State.init A) where
  row_le := Nat.zero_le n
  le_frontier := le_rfl
  frontier_le := Nat.zero_le m
  factor := fun r _ c _ => by simp [State.init, product]
  diag := fun k hk => absurd hk (Nat.not_lt_zero k)
  rowperm_fix := fun _ _ => rfl
  colperm_fix := fun _ _ => rfl
  pivot_lt := fun k hk => absurd hk (Nat.not_lt_zero k)
  pivot_strict := fun _ k _ hk => absurd hk (Nat.not_lt_zero k)
  rejected := fun _ c _ _ _ hc => absurd hc (Nat.not_lt_zero c)
  skipped := fun k _ hk => absurd hk (Nat.not_lt_zero k)

section Step

variable {A : Table F} {n m i q prow pcol : ℕ} {s : State F}

/-- The pivot is never taken from a rejected column. -/
theorem Inv.frontier_le_pivot (h : Inv A n m i q s) (hp : IsPivot s.mat n m i prow pcol) :
    q ≤ pcol := by
  by_contra hlt
  exact hp.ne_zero (h.rejected prow pcol hp.row_ge hp.row_lt hp.col_ge (by omega))

theorem swap_fix {i p k : ℕ} (hp : i ≤ p) (hk : k < i) : Equiv.swap i p k = k :=
  Equiv.swap_apply_of_ne_of_ne (by omega) (by omega)

theorem swap_lt {i p k n : ℕ} (hi : i < n) (hp : p < n) (hk : k < n) :
    Equiv.swap i p k < n := by
  rw [Equiv.swap_apply_def]
  split_ifs <;> omega

theorem swap_ge {i p k : ℕ} (hp : i ≤ p) (hk : i ≤ k) : i ≤ Equiv.swap i p k := by
  rw [Equiv.swap_apply_def]
  split_ifs <;> omega

/-- After the exchange the columns between the pivot and its old place hold
what stood left of the pivot. -/
theorem swap_between {i p c : ℕ} (hlo : i < c) (hhi : c ≤ p) :
    i ≤ Equiv.swap i p c ∧ Equiv.swap i p c < p := by
  rw [Equiv.swap_apply_def]
  split_ifs <;> omega

theorem exchange_pivot_ne_zero (hp : IsPivot s.mat n m i prow pcol) :
    (s.exchange i prow pcol).mat i i ≠ 0 := by
  simpa [State.exchange, Table.swapCols, Table.swapRows] using hp.ne_zero

theorem pivot_colperm (s : State F) (i prow pcol c : ℕ) :
    (s.pivot i prow pcol).colperm c = s.colperm (Equiv.swap i pcol c) := rfl

theorem pivot_colperm_of_lt (hp : IsPivot s.mat n m i prow pcol) {k : ℕ} (hk : k < i) :
    (s.pivot i prow pcol).colperm k = s.colperm k := by
  rw [pivot_colperm, swap_fix hp.col_ge hk]

/-- The finished rows only have their columns exchanged. -/
theorem pivot_mat_of_lt (hp : IsPivot s.mat n m i prow pcol) {k : ℕ} (hk : k < i) (c : ℕ) :
    (s.pivot i prow pcol).mat k c = s.mat k (Equiv.swap i pcol c) := by
  simp [State.pivot, State.exchange, eliminate, hk.le, Table.swapCols, Table.swapRows,
    swap_fix hp.row_ge hk]

/-- Columns that are zero in the remaining block stay zero there. -/
theorem exchange_left_zero (hp : IsPivot s.mat n m i prow pcol) {r c : ℕ} (hr : i ≤ r)
    (hrn : r < n) (hlo : i < c) (hhi : c ≤ pcol) : (s.exchange i prow pcol).mat r c = 0 := by
  have hin : i < n := hp.row_ge.trans_lt hp.row_lt
  obtain ⟨hge, hlt⟩ := swap_between hlo hhi
  exact hp.left _ hge hlt _ (swap_ge hp.row_ge hr) (swap_lt hin hp.row_lt hrn)

theorem pivot_upper_zero (h : Inv A n m i q s) (hp : IsPivot s.mat n m i prow pcol) {k c : ℕ}
    (hk : k < i) (hlo : i < c) (hhi : c ≤ pcol)
    (hlt : (s.pivot i prow pcol).colperm c < (s.pivot i prow pcol).colperm k) :
    (s.pivot i prow pcol).mat k c = 0 := by
  rw [pivot_colperm, pivot_colperm_of_lt hp hk] at hlt
  rw [pivot_mat_of_lt hp hk]
  have hplace := swap_between hlo hhi
  -- A column at or behind the frontier was not moved yet, so it is right of every pivot.
  have hleft : Equiv.swap i pcol c < q := by
    by_contra hge
    rw [h.colperm_fix _ (by omega)] at hlt
    exact absurd (h.pivot_lt k hk) (by omega)
  exact h.skipped k _ hk hplace.1 hleft hlt

/-- One round keeps the invariant and moves the frontier behind the pivot column. -/
theorem Inv.step (h : Inv A n m i q s) (hp : IsPivot s.mat n m i prow pcol) :
    Inv A n m (i + 1) (pcol + 1) (s.pivot i prow pcol) := by
  have hin : i < n := hp.row_ge.trans_lt hp.row_lt
  have him : i < m := hp.col_ge.trans_lt hp.col_lt
  have hq : q ≤ pcol := h.frontier_le_pivot hp
  have hpcol : (s.pivot i prow pcol).colperm i = pcol := by
    rw [pivot_colperm, Equiv.swap_apply_left, h.colperm_fix pcol hq]
  constructor
  case row_le => exact hin
  case le_frontier => exact Nat.succ_le_succ hp.col_ge
  case frontier_le => exact hp.col_lt
  case factor =>
    intro r hr c hc
    calc
      A ((s.pivot i prow pcol).rowperm r) ((s.pivot i prow pcol).colperm c)
        = product s.mat i (Equiv.swap i prow r) (Equiv.swap i pcol c) :=
          h.factor _ (swap_lt hin hp.row_lt hr) _ (swap_lt him hp.col_lt hc)
      _ = product (s.exchange i prow pcol).mat i r c :=
          (product_exchange s.mat hp.row_ge hp.col_ge r c).symm
      _ = product (s.pivot i prow pcol).mat (i + 1) r c :=
          (product_eliminate _ (exchange_pivot_ne_zero hp) r c).symm
  case diag =>
    intro k hk
    rcases Nat.lt_succ_iff_lt_or_eq.mp hk with hlt | rfl
    · rw [pivot_mat_of_lt hp hlt, swap_fix hp.col_ge hlt]
      exact h.diag k hlt
    · simpa [State.pivot, eliminate] using exchange_pivot_ne_zero hp
  case rowperm_fix =>
    intro r hr
    have hswap : Equiv.swap i prow r = r :=
      Equiv.swap_apply_of_ne_of_ne (by omega) (by have := hp.row_lt; omega)
    exact (congrArg s.rowperm hswap).trans (h.rowperm_fix r hr)
  case colperm_fix =>
    intro c hc
    have hge := hp.col_ge
    rw [pivot_colperm, Equiv.swap_apply_of_ne_of_ne (by omega) (by omega)]
    exact h.colperm_fix c (by omega)
  case pivot_lt =>
    intro k hk
    rcases Nat.lt_succ_iff_lt_or_eq.mp hk with hlt | rfl
    · have := h.pivot_lt k hlt
      rw [pivot_colperm_of_lt hp hlt]
      omega
    · rw [hpcol]
      exact Nat.lt_succ_self pcol
  case pivot_strict =>
    intro j k hjk hk
    rcases Nat.lt_succ_iff_lt_or_eq.mp hk with hlt | rfl
    · rw [pivot_colperm_of_lt hp (hjk.trans hlt), pivot_colperm_of_lt hp hlt]
      exact h.pivot_strict j k hjk hlt
    · rw [pivot_colperm_of_lt hp hjk, hpcol]
      exact (h.pivot_lt j hjk).trans_le hq
  case rejected =>
    intro r c hr hrn hc hcq
    have hrow : (s.exchange i prow pcol).mat r c = 0 :=
      exchange_left_zero hp (by omega) hrn hc (by omega)
    have htop : (s.exchange i prow pcol).mat i c = 0 :=
      exchange_left_zero hp le_rfl hin hc (by omega)
    have hne : ¬ (r ≤ i ∨ c < i) := by omega
    have hci : c ≠ i := by omega
    simp [State.pivot, eliminate, hne, hci, hrow, htop]
  case skipped =>
    intro k c hk hc hcq hlt
    rcases Nat.lt_succ_iff_lt_or_eq.mp hk with hki | rfl
    · exact pivot_upper_zero h hp hki hc (by omega) hlt
    · simpa [State.pivot, eliminate] using exchange_left_zero hp le_rfl hin hc (by omega)

end Step

/-- The invariant holds of every state a run reaches, the last one included. -/
theorem Run.inv {A : Table F} {n m i q r : ℕ} {s t : State F} (h : Run n m i s r t)
    (hinv : Inv A n m i q s) : (∃ q', Inv A n m r q' t) ∧ BlockZero t.mat n m r := by
  induction h generalizing q with
  | stop hzero => exact ⟨⟨q, hinv⟩, hzero⟩
  | step hpivot _ ih => exact ih (hinv.step hpivot)

/-- A finished elimination of `A`: what `Inv` becomes when the block is zero. -/
structure Finished (A : Table F) (n m r q : ℕ) (t : State F) : Prop extends Inv A n m r q t where
  block_zero : BlockZero t.mat n m r

theorem Run.finished {A : Table F} {n m r : ℕ} {t : State F}
    (h : Run n m 0 (State.init A) r t) : ∃ q, Finished A n m r q t := by
  obtain ⟨⟨q, hinv⟩, hzero⟩ := h.inv (Inv.init A n m)
  exact ⟨q, { toInv := hinv, block_zero := hzero }⟩

namespace Finished

variable {A : Table F} {n m r q : ℕ} {t : State F}

theorem rowperm_lt (h : Finished A n m r q t) {k : ℕ} : t.rowperm k < n ↔ k < n := by
  constructor
  · intro hk
    by_contra hge
    rw [h.rowperm_fix k (by omega)] at hk
    exact hge hk
  · intro hk
    by_contra hge
    have hfix := t.rowperm.injective (h.rowperm_fix (t.rowperm k) (by omega))
    omega

theorem colperm_lt (h : Finished A n m r q t) {k : ℕ} : t.colperm k < m ↔ k < m := by
  have hfix : ∀ c, m ≤ c → t.colperm c = c := fun c hc =>
    h.colperm_fix c (h.frontier_le.trans hc)
  constructor
  · intro hk
    by_contra hge
    rw [hfix k (by omega)] at hk
    exact hge hk
  · intro hk
    by_contra hge
    have := t.colperm.injective (hfix (t.colperm k) (by omega))
    omega

theorem rank_le_rows (h : Finished A n m r q t) : r ≤ n := h.row_le

theorem rank_le_cols (h : Finished A n m r q t) : r ≤ m := h.le_frontier.trans h.frontier_le

/-- The factors multiply to the permuted matrix. -/
theorem factor_eq (h : Finished A n m r q t) {i j : ℕ} (hi : i < n) (hj : j < m) :
    A (t.rowperm i) (t.colperm j) = ∑ k ∈ range r, lower t.mat i k * upper t.mat k j := by
  rw [h.factor i hi j hj, product]
  split_ifs with hge
  · rw [h.block_zero i j hge.1 hi hge.2 hj, add_zero]
  · exact add_zero _

/-! ## Column space -/

theorem column_eq_sum (h : Finished A n m r q t) {c : ℕ} (hc : c < m) :
    A.column n (t.colperm c) = ∑ k ∈ range r, upper t.mat k c • t.lowerColumn n k := by
  funext i
  have hlt : t.rowperm.symm i < n := by
    rw [← h.rowperm_lt, Equiv.apply_symm_apply]
    exact i.isLt
  have heq := h.factor_eq hlt hc
  rw [Equiv.apply_symm_apply] at heq
  simp only [Table.column, heq, Finset.sum_apply, Pi.smul_apply, smul_eq_mul,
    State.lowerColumn]
  exact sum_congr rfl fun k _ => mul_comm _ _

/-- The columns of the lower factor are independent: on the pivot rows they
form a unit triangle. -/
theorem lowerColumn_linearIndependent (h : Finished A n m r q t) :
    LinearIndependent F fun k : Fin r => t.lowerColumn n k := by
  rw [Fintype.linearIndependent_iff]
  intro g hg
  have hzero : ∀ k, ∀ hk : k < r, g ⟨k, hk⟩ = 0 := by
    intro k
    induction k using Nat.strong_induction_on with
    | _ k ih =>
        intro hk
        have hrow : t.rowperm k < n := h.rowperm_lt.mpr (hk.trans_le h.rank_le_rows)
        have heval : ∑ j : Fin r, g j * lower t.mat k j = 0 := by
          have := congrFun hg ⟨t.rowperm k, hrow⟩
          simpa [State.lowerColumn, Finset.sum_apply] using this
        rw [sum_eq_single (⟨k, hk⟩ : Fin r), lower_self, mul_one] at heval
        · exact heval
        · intro j _ hj
          rcases lt_or_gt_of_ne fun heq => hj (Fin.ext heq) with hlt | hgt
          · rw [ih j hlt j.isLt, zero_mul]
          · rw [lower_of_lt _ hgt, mul_zero]
        · exact fun habs => absurd (mem_univ _) habs
  exact fun k => hzero k k.isLt

/-- A pivot column needs no lower column behind its own. -/
theorem pivotColumn_eq_sum (h : Finished A n m r q t) {k : ℕ} (hk : k < r) :
    A.column n (t.colperm k) =
      (∑ j ∈ range k, upper t.mat j k • t.lowerColumn n j) + t.mat k k • t.lowerColumn n k := by
  have htail : ∀ j ∈ range r, j ∉ range (k + 1) →
      upper t.mat j k • t.lowerColumn n j = 0 := fun j _ hj => by
    rw [mem_range] at hj
    rw [upper_of_lt _ (by omega), zero_smul]
  rw [h.column_eq_sum (hk.trans_le h.rank_le_cols),
    ← sum_subset (range_subset_range.mpr hk) htail, sum_range_succ, upper_of_le _ le_rfl]

/-- A subspace with the pivot column `k` and all earlier lower columns has lower
column `k`. -/
theorem lowerColumn_mem (h : Finished A n m r q t) {k : ℕ} (hk : k < r)
    {V : Submodule F (Fin n → F)} (hcol : A.column n (t.colperm k) ∈ V)
    (hprev : ∀ j < k, t.lowerColumn n j ∈ V) : t.lowerColumn n k ∈ V := by
  have hlow : t.lowerColumn n k = (t.mat k k)⁻¹ • (A.column n (t.colperm k) -
      ∑ j ∈ range k, upper t.mat j k • t.lowerColumn n j) := by
    rw [h.pivotColumn_eq_sum hk, add_sub_cancel_left, smul_smul,
      inv_mul_cancel₀ (h.diag k hk), one_smul]
  rw [hlow]
  refine V.smul_mem _ (V.sub_mem hcol (V.sum_mem fun j hj => ?_))
  exact V.smul_mem _ (hprev j (mem_range.mp hj))

/-- Each column of the lower factor is a combination of pivot columns up to its own. -/
theorem lowerColumn_mem_span (h : Finished A n m r q t) {k : ℕ} (hk : k < r) :
    t.lowerColumn n k ∈ Submodule.span F (A.column n '' Set.Iic (t.colperm k)) := by
  induction k using Nat.strong_induction_on with
  | _ k ih =>
      apply h.lowerColumn_mem hk
      · exact Submodule.subset_span ⟨_, Set.self_mem_Iic, rfl⟩
      · intro j hj
        have hle : t.colperm j ≤ t.colperm k := (h.pivot_strict j k hj hk).le
        exact Submodule.span_mono (Set.image_mono (Set.Iic_subset_Iic.mpr hle))
          (ih j hj (hj.trans hk))

/-- A column left of the pivot column `k` only needs the lower columns before `k`. -/
theorem column_mem_span_lower (h : Finished A n m r q t) {k j : ℕ} (hk : k < r)
    (hj : j < t.colperm k) :
    A.column n j ∈ Submodule.span F (t.lowerColumn n '' Set.Iio k) := by
  obtain ⟨c, rfl⟩ := t.colperm.surjective j
  have hkm : t.colperm k < m := h.colperm_lt.mpr (hk.trans_le h.rank_le_cols)
  rw [h.column_eq_sum (h.colperm_lt.mp (hj.trans hkm))]
  refine Submodule.sum_mem _ fun i hi => ?_
  have hir : i < r := mem_range.mp hi
  rcases lt_or_ge i k with hik | hki
  · exact Submodule.smul_mem _ _ (Submodule.subset_span ⟨i, hik, rfl⟩)
  · have hle : t.colperm k ≤ t.colperm i := by
      rcases hki.lt_or_eq with hlt | rfl
      · exact (h.pivot_strict k i hlt hir).le
      · exact le_rfl
    have hzero : upper t.mat i c = 0 := by
      rcases lt_or_ge c r with hcr | hcr
      · -- `c` is a pivot position before `k`, so row `i` is below the diagonal there.
        have hck : c < k := by
          by_contra hge
          rcases (not_lt.mp hge).lt_or_eq with hlt | rfl
          · exact absurd (h.pivot_strict k c hlt hcr) hj.not_gt
          · exact lt_irrefl _ hj
        exact upper_of_lt _ (hck.trans_le hki)
      · -- `c` was rejected before the round of pivot `i`.
        have hcq : c < q := by
          by_contra hge
          have hfix := h.colperm_fix c (by omega)
          have := h.pivot_lt k hk
          omega
        rw [upper_of_le _ (by omega)]
        exact h.skipped i c hir hcr hcq (hj.trans_le hle)
    rw [hzero, zero_smul]
    exact Submodule.zero_mem _

/-- A column that is no pivot column is a combination of the columns left of it. -/
theorem column_mem_span_of_not_pivot (h : Finished A n m r q t) {c : ℕ} (hrc : r ≤ c)
    (hc : c < m) :
    A.column n (t.colperm c) ∈
      Submodule.span F (A.column n '' Set.Iio (t.colperm c)) := by
  rw [h.column_eq_sum hc]
  refine Submodule.sum_mem _ fun i hi => ?_
  have hir : i < r := mem_range.mp hi
  rcases lt_or_ge (t.colperm i) (t.colperm c) with hlt | hge
  · exact Submodule.smul_mem _ _ (Submodule.span_mono
      (Set.image_mono fun _ hx => lt_of_le_of_lt hx hlt) (h.lowerColumn_mem_span hir))
  · have hne : t.colperm c ≠ t.colperm i := fun heq => by
      have := t.colperm.injective heq
      omega
    have hcq : c < q := by
      by_contra hcq
      have hfix := h.colperm_fix c (by omega)
      have := h.pivot_lt i hir
      omega
    rw [upper_of_le _ (by omega),
      h.skipped i c hir hrc hcq (lt_of_le_of_ne hge hne), zero_smul]
    exact Submodule.zero_mem _

/-- The pivot columns are exactly the columns that are no combination of the
columns left of them. -/
theorem pivot_iff (h : Finished A n m r q t) {j : ℕ} (hj : j < m) :
    (∃ k < r, t.colperm k = j) ↔
      A.column n j ∉ Submodule.span F (A.column n '' Set.Iio j) := by
  constructor
  · rintro ⟨k, hk, rfl⟩ hmem
    have hprev : Submodule.span F (A.column n '' Set.Iio (t.colperm k)) ≤
        Submodule.span F (t.lowerColumn n '' Set.Iio k) := by
      rw [Submodule.span_le]
      rintro _ ⟨j, hjk, rfl⟩
      exact h.column_mem_span_lower hk hjk
    have hlow : t.lowerColumn n k ∈ Submodule.span F (t.lowerColumn n '' Set.Iio k) :=
      h.lowerColumn_mem hk (hprev hmem) fun j hj => Submodule.subset_span ⟨j, hj, rfl⟩
    have himage : t.lowerColumn n '' Set.Iio k =
        (fun j : Fin r => t.lowerColumn n j) '' Set.Iio ⟨k, hk⟩ := by
      ext v
      constructor
      · rintro ⟨j, hj, rfl⟩
        exact ⟨⟨j, hj.trans hk⟩, hj, rfl⟩
      · rintro ⟨j, hj, rfl⟩
        exact ⟨j, hj, rfl⟩
    rw [himage] at hlow
    have hself : (⟨k, hk⟩ : Fin r) ∉ Set.Iio (⟨k, hk⟩ : Fin r) := by simp
    exact h.lowerColumn_linearIndependent.notMem_span_image hself hlow
  · intro hnot
    obtain ⟨c, rfl⟩ := t.colperm.surjective j
    have hc := h.colperm_lt.mp hj
    refine ⟨c, ?_, rfl⟩
    by_contra hrc
    exact hnot (h.column_mem_span_of_not_pivot (by omega) hc)

/-- The columns of the matrix and those of the lower factor span the same space. -/
theorem span_column_eq (h : Finished A n m r q t) :
    Submodule.span F (Set.range (A.toMatrix n m).col) =
      Submodule.span F (Set.range fun k : Fin r => t.lowerColumn n k) := by
  apply le_antisymm
  · rw [Submodule.span_le]
    rintro _ ⟨j, rfl⟩
    obtain ⟨c, hc⟩ := t.colperm.surjective j
    have hcol : (A.toMatrix n m).col j = A.column n (t.colperm c) := by rw [hc]; rfl
    rw [hcol, h.column_eq_sum (h.colperm_lt.mp (hc ▸ j.isLt))]
    refine Submodule.sum_mem _ fun k hk => Submodule.smul_mem _ _ ?_
    exact Submodule.subset_span ⟨⟨k, mem_range.mp hk⟩, rfl⟩
  · rw [Submodule.span_le]
    rintro _ ⟨k, rfl⟩
    refine Submodule.span_mono ?_ (h.lowerColumn_mem_span k.isLt)
    rintro _ ⟨j, hj, rfl⟩
    have hkm : t.colperm k < m := h.colperm_lt.mpr (k.isLt.trans_le h.rank_le_cols)
    exact ⟨⟨j, lt_of_le_of_lt hj hkm⟩, rfl⟩

/-- The number of rounds is the rank of the matrix. -/
theorem rank_eq (h : Finished A n m r q t) : (A.toMatrix n m).rank = r := by
  rw [Matrix.rank_eq_finrank_span_cols, h.span_column_eq,
    finrank_span_eq_card h.lowerColumn_linearIndependent, Fintype.card_fin]

/-- With full column rank no column is moved. -/
theorem colperm_eq_self (h : Finished A n m m q t) (c : ℕ) : t.colperm c = c := by
  have hge : ∀ k < m, k ≤ t.colperm k := by
    intro k hk
    induction k with
    | zero => exact Nat.zero_le _
    | succ k ih =>
        have := h.pivot_strict k (k + 1) (Nat.lt_succ_self k) hk
        have := ih (by omega)
        omega
  have hle : ∀ d k, k + d + 1 = m → t.colperm k + d + 1 ≤ m := by
    intro d
    induction d with
    | zero =>
        intro k hk
        exact h.colperm_lt.mpr (by omega)
    | succ d ih =>
        intro k hk
        have := ih (k + 1) (by omega)
        have := h.pivot_strict k (k + 1) (Nat.lt_succ_self k) (by omega)
        omega
  rcases lt_or_ge c m with hc | hc
  · have := hge c hc
    have := hle (m - c - 1) c (by omega)
    omega
  · exact h.colperm_fix c (h.frontier_le.trans hc)

end Finished

end Elimination
