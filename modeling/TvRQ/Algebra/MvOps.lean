/-
# Operations on banks of matrices

The operations and functions that every kind of views has, on matrices that are
named by indices.  When two banks of different kinds hold the same tables, every
operation in range does the same to both: it returns the same, leaves the same
tables, and changes nothing outside its target.
-/

import TvRQ.Algebra.MvSimulation

namespace TvRQ

open Imperative Heap MvGen MvGenAll

/-- The operations of `m2v.h` and `m256v.h` and the functions of `mv_generic.h`
on the matrices of a bank; a scalar is 0 or 1. -/
inductive MatOp (ι : Type)
  | swapRows (M : ι) (r₁ r₂ : ℕ)
  | clearRow (M : ι) (r : ℕ)
  | multRow (M : ι) (r : ℕ) (alpha : Bool)
  | multaddRow (M₁ : ι) (r₁ : ℕ) (alpha : Bool) (Mt : ι) (rt : ℕ)
  | multaddRowFrom (M₁ : ι) (r₁ offs : ℕ) (alpha : Bool) (Mt : ι) (rt : ℕ)
  | copyRow (M₁ : ι) (r₁ : ℕ) (Mt : ι) (rt : ℕ)
  | rowIszero (M : ι) (r : ℕ)
  | swapCols (M : ι) (c₁ c₂ : ℕ)
  | multColFrom (M : ι) (c offs : ℕ) (alpha : Bool)
  | copyCol (M₁ : ι) (c₁ : ℕ) (Mt : ι) (ct : ℕ)
  | iszero (M : ι)
  | clear (M : ι)
  | copy (A B : ι)
  | permuteRows (M : ι) (rowperm : Array ℕ)
  | permuteCols (M : ι) (colperm : Array ℕ)
  | add (A B out : ι)
  | addInplace (A BInout : ι)
  | mul (A B ABOut : ι)
  | luMult (LU : ι) (rp cp : Array ℕ) (X YOut : ι)
  | luMultInplace (LU : ι) (invRowperm colperm : Option (Array ℕ)) (XInout : ι)
  | luInvmult (LU : ι) (rank : ℤ) (rowperm colperm : Array ℕ) (Y XOut : ι)
  | luInvmultInplace (LU : ι) (rank : ℤ) (rowperm invColperm : Option (Array ℕ)) (XInout : ι)

namespace MatOp

variable {ι V σ E F : Type}

/-- A function that returns nothing. -/
def void (p : Prog σ Unit) : Prog σ (Option Bool) := do
  p
  pure none

/-- A function that returns a truth value. -/
def test (p : Prog σ Bool) : Prog σ (Option Bool) := do
  let b ← p
  pure (some b)

/-- Run an operation on a bank. -/
def run [Zero E] [One E] [MvGenAll V σ E] (bank : ι → V) : MatOp ι → Prog σ (Option Bool)
  | swapRows M r₁ r₂ => void (MvGen.swapRows (bank M) r₁ r₂)
  | clearRow M r => void (MvGen.clearRow (bank M) r)
  | multRow M r alpha => void (MvGen.multRow (bank M) r (if alpha then 1 else 0))
  | multaddRow M₁ r₁ alpha Mt rt =>
      void (MvGen.multaddRow (bank M₁) r₁ (if alpha then 1 else 0) (bank Mt) rt)
  | multaddRowFrom M₁ r₁ offs alpha Mt rt =>
      void (MvGen.multaddRowFrom (bank M₁) r₁ offs (if alpha then 1 else 0) (bank Mt) rt)
  | copyRow M₁ r₁ Mt rt => void (MvGen.copyRow (bank M₁) r₁ (bank Mt) rt)
  | rowIszero M r => test (MvGenAll.rowIszero (bank M) r)
  | swapCols M c₁ c₂ => void (MvGen.swapCols (bank M) c₁ c₂)
  | multColFrom M c offs alpha =>
      void (MvGen.multColFrom (bank M) c offs (if alpha then 1 else 0))
  | copyCol M₁ c₁ Mt ct => void (MvGenAll.copyCol (bank M₁) c₁ (bank Mt) ct)
  | iszero M => test (MvMatrix.iszero (bank M))
  | clear M => void (MvGen.clear (bank M))
  | copy A B => void (MvMatrix.copy (bank A) (bank B))
  | permuteRows M rowperm => void (MvGen.permuteRows (bank M) rowperm)
  | permuteCols M colperm => void (MvMatrix.permuteCols (bank M) colperm)
  | add A B out => void (MvMatrix.add (bank A) (bank B) (bank out))
  | addInplace A BInout => void (MvMatrix.addInplace (bank A) (bank BInout))
  | mul A B ABOut => void (MvMatrix.mul (bank A) (bank B) (bank ABOut))
  | luMult LU rp cp X YOut => void (MvMatrix.luMult (bank LU) rp cp (bank X) (bank YOut))
  | luMultInplace LU invRowperm colperm XInout =>
      void (MvMatrix.luMultInplace (bank LU) invRowperm colperm (bank XInout))
  | luInvmult LU rank rowperm colperm Y XOut =>
      void (MvMatrix.luInvmult (bank LU) rank rowperm colperm (bank Y) (bank XOut))
  | luInvmultInplace LU rank rowperm invColperm XInout =>
      void (MvGen.luInvmultInplace (bank LU) rank rowperm invColperm (bank XInout))

/-- The array lists a permutation of the numbers below `n`, or there is no array. -/
def PermOpt (perm : Option (Array ℕ)) (n : ℕ) : Prop :=
  ∀ p ∈ perm, p.toList.Perm (List.range n)

/-- The rank that a solver is given: -1, or the number of pivots to use. -/
def RankIn (rank : ℤ) (n m : ℕ) : Prop := rank = -1 ∨ (0 ≤ rank ∧ rank ≤ n ∧ rank ≤ m)

/-- The first pivots of the factors are not zero. -/
def Pivots [Zero F] (A : Table F) (rank : ℤ) (n m : ℕ) : Prop :=
  ∀ i < if rank = -1 then min m n else rank.toNat, A i i ≠ 0

/-- The arguments are in range for matrices with `n` rows and `m` columns that
hold the tables `A`. -/
def InRange [Zero F] (n m : ι → ℕ) (A : ι → Table F) : MatOp ι → Prop
  | swapRows M r₁ r₂ => r₁ < n M ∧ r₂ < n M
  | clearRow M r => r < n M
  | multRow M r _ => r < n M
  | multaddRow M₁ r₁ _ Mt rt => m M₁ = m Mt ∧ r₁ < n M₁ ∧ rt < n Mt
  | multaddRowFrom M₁ r₁ offs _ Mt rt => m M₁ = m Mt ∧ r₁ < n M₁ ∧ rt < n Mt ∧ offs < m Mt
  | copyRow M₁ r₁ Mt rt => m M₁ = m Mt ∧ r₁ < n M₁ ∧ rt < n Mt
  | rowIszero M r => r < n M
  | swapCols M c₁ c₂ => c₁ < m M ∧ c₂ < m M
  | multColFrom M c offs _ => c < m M ∧ offs ≤ n M
  | copyCol M₁ c₁ Mt ct => n M₁ = n Mt ∧ c₁ < m M₁ ∧ ct < m Mt
  | iszero _ => True
  | clear _ => True
  | copy A B => n A = n B ∧ m A = m B
  | permuteRows M rowperm => rowperm.toList.Perm (List.range (n M))
  | permuteCols M colperm => colperm.toList.Perm (List.range (m M))
  | add A B out => n A = n B ∧ m A = m B ∧ n A = n out ∧ m A = m out
  | addInplace A BInout => n A = n BInout ∧ m A = m BInout
  | mul A B ABOut => m A = n B ∧ n A = n ABOut ∧ m B = m ABOut
  | luMult LU rp cp X YOut => m LU = n X ∧ n LU = n YOut ∧ m X = m YOut ∧
      HeapView.InBounds rp (n LU) (n YOut) ∧ HeapView.InBounds cp (m LU) (n X)
  | luMultInplace LU invRowperm colperm XInout => m LU ≤ n XInout ∧ n LU ≤ n XInout ∧
      PermOpt invRowperm (n LU) ∧ PermOpt colperm (m LU)
  | luInvmult LU rank rowperm colperm Y XOut => LU ≠ XOut ∧ m LU = n XOut ∧ n LU = n Y ∧
      m XOut = m Y ∧ HeapView.InBounds rowperm (n LU) (n Y) ∧
        HeapView.InBounds colperm (m LU) (n XOut) ∧ RankIn rank (n LU) (m LU) ∧
          Pivots (A LU) rank (n LU) (m LU)
  | luInvmultInplace LU rank rowperm invColperm XInout => LU ≠ XInout ∧ m LU ≤ n XInout ∧
      n LU ≤ n XInout ∧ PermOpt rowperm (n LU) ∧ PermOpt invColperm (m LU) ∧
        RankIn rank (n LU) (m LU) ∧ Pivots (A LU) rank (n LU) (m LU)

/-- The entries that an operation may change: matrix `k`, row `i`, column `j`. -/
def Target : MatOp ι → ι → ℕ → ℕ → Prop
  | swapRows M r₁ r₂, k, i, _ => k = M ∧ (i = r₁ ∨ i = r₂)
  | clearRow M r, k, i, _ => k = M ∧ i = r
  | multRow M r _, k, i, _ => k = M ∧ i = r
  | multaddRow _ _ _ Mt rt, k, i, _ => k = Mt ∧ i = rt
  | multaddRowFrom _ _ offs _ Mt rt, k, i, j => k = Mt ∧ i = rt ∧ offs ≤ j
  | copyRow _ _ Mt rt, k, i, _ => k = Mt ∧ i = rt
  | rowIszero _ _, _, _, _ => False
  | swapCols M c₁ c₂, k, _, j => k = M ∧ (j = c₁ ∨ j = c₂)
  | multColFrom M c offs _, k, i, j => k = M ∧ j = c ∧ offs ≤ i
  | copyCol _ _ Mt ct, k, _, j => k = Mt ∧ j = ct
  | iszero _, _, _, _ => False
  | clear M, k, _, _ => k = M
  | copy _ B, k, _, _ => k = B
  | permuteRows M _, k, _, _ => k = M
  | permuteCols M _, k, _, _ => k = M
  | add _ _ out, k, _, _ => k = out
  | addInplace _ BInout, k, _, _ => k = BInout
  | mul _ _ ABOut, k, _, _ => k = ABOut
  | luMult _ _ _ _ YOut, k, _, _ => k = YOut
  | luMultInplace _ _ _ XInout, k, _, _ => k = XInout
  | luInvmult _ _ _ _ _ XOut, k, _, _ => k = XOut
  | luInvmultInplace _ _ _ _ XInout, k, _, _ => k = XInout

end MatOp

namespace HeapView

variable {V α E F : Type} [Field F] [Zero E] [One E] [MvGenAll V (Heap α) E] [HeapView V α E F]
  {W β G K : Type} [Field K] [Zero G] [One G] [MvGenAll W (Heap β) G] [HeapView W β G K]
  {ι : Type}

/-- Two banks of matrices hold the same tables.  Each matrix has cells of its own
and is not empty. -/
structure Banks (f : F →+* K) (x : ι → V × W) (g : Heap α × Heap β) (A : ι → Table F) : Prop where
  twin : ∀ k, Twin f (x k) g (A k)
  apart : ∀ i j, i ≠ j → ApartTwins (x i) (x j)
  rows_pos : ∀ k, 0 < nRow (x k).1
  cols_pos : ∀ k, 0 < nCol (x k).1

/-- After `op` the banks hold the same tables again, which are as before outside
the target of `op`. -/
def RanOp (f : F →+* K) (x : ι → V × W) (A : ι → Table F) (op : MatOp ι)
    (g' : Heap α × Heap β) : Prop :=
  ∃ A', Banks f x g' A' ∧ ∀ k i j, ¬ op.Target k i j → A' k i j = A k i j

variable {f : F →+* K} {x : ι → V × W} {g g' : Heap α × Heap β} {A : ι → Table F} {op : MatOp ι}

theorem Banks.source (hbanks : Banks f x g A) (s t : ι) : x s = x t ∨ ApartTwins (x t) (x s) := by
  by_cases hst : s = t
  · exact Or.inl (congrArg x hst)
  · exact Or.inr (hbanks.apart t s fun heq => hst heq.symm)

/-- One matrix has changed. -/
theorem Banks.ranOp (hbanks : Banks f x g A) {t : ι} {A' : Table F}
    (h : Becomes f (x t) g A' g') (ht : ∀ i j, ¬ op.Target t i j → A' i j = A t i j) :
    RanOp f x A op g' := by
  classical
  refine ⟨Function.update A t A', ⟨?_, hbanks.apart, hbanks.rows_pos, hbanks.cols_pos⟩, ?_⟩
  · intro k
    by_cases hkt : k = t
    · subst hkt
      rw [Function.update_self]
      exact h.twin
    · rw [Function.update_of_ne hkt]
      exact h.changed.twin_apart (hbanks.twin k) (hbanks.apart t k fun heq => hkt heq.symm)
  · intro k i j hk
    by_cases hkt : k = t
    · subst hkt
      rw [Function.update_self, ht i j hk]
    · rw [Function.update_of_ne hkt]

/-- No matrix has changed. -/
theorem Banks.ranOp_refl (hbanks : Banks f x g A) : RanOp f x A op g :=
  ⟨A, hbanks, fun _ _ _ _ => rfl⟩

section Results

variable {p : Prog (Heap α) Unit} {q : Prog (Heap β) Unit} {t : ι}

/-- A function that changes one matrix. -/
theorem Banks.both_becomes {A' : Table F} (hbanks : Banks f x g A)
    (h : Both p q g fun _ _ => Becomes f (x t) g A')
    (ht : ∀ i j, ¬ op.Target t i j → A' i j = A t i j) :
    Both (MatOp.void p) (MatOp.void q) g fun a b g' => a = b ∧ RanOp f x A op g' := by
  apply h.bind
  intro _ _ g' h'
  exact both_pure.mpr ⟨rfl, hbanks.ranOp h' ht⟩

/-- A function that changes one matrix, all of which is the target. -/
theorem Banks.both_changed (hbanks : Banks f x g A)
    (h : Both p q g fun _ _ => Changed f (x t) g) (ht : ∀ i j, op.Target t i j) :
    Both (MatOp.void p) (MatOp.void q) g fun a b g' => a = b ∧ RanOp f x A op g' := by
  apply h.bind
  rintro _ _ g' ⟨A', h'⟩
  exact both_pure.mpr ⟨rfl, hbanks.ranOp h' fun i j hk => absurd (ht i j) hk⟩

end Results

theorem both_test {p : Prog (Heap α) Bool} {q : Prog (Heap β) Bool} (hbanks : Banks f x g A)
    (h : Both p q g fun a b g' => a = b ∧ g' = g) :
    Both (MatOp.test p) (MatOp.test q) g fun a b g' => a = b ∧ RanOp f x A op g' := by
  apply h.bind
  rintro a b g' ⟨rfl, rfl⟩
  exact both_pure.mpr ⟨rfl, hbanks.ranOp_refl⟩

/-- The scalars of the code are those of the fields. -/
theorem el_scalar (alpha : Bool) :
    (el V (if alpha then 1 else 0 : F) : E) = if alpha then 1 else 0 := by
  cases alpha with
  | true => exact el_one
  | false => exact el_zero

theorem map_scalar (f : F →+* K) (alpha : Bool) :
    f (if alpha then 1 else 0) = if alpha then 1 else 0 := by
  cases alpha with
  | true => exact map_one f
  | false => exact map_zero f

omit [Zero E] [One E] in
theorem rankIn_solveRank {LU : V} {rank : ℤ} (h : MatOp.RankIn rank (nRow LU) (nCol LU)) :
    solveRank LU rank ≤ nRow LU ∧ solveRank LU rank ≤ nCol LU := by
  rcases h with rfl | ⟨hpos, hrow, hcol⟩
  · exact ⟨min_le_right _ _, min_le_left _ _⟩
  · have hne : rank ≠ -1 := by omega
    rw [solveRank, if_neg hne]
    omega

theorem exists_listsOpt {perm : Option (Array ℕ)} {n : ℕ} (h : MatOp.PermOpt perm n) :
    ∃ π, ListsOpt perm n π := by
  cases perm with
  | some p =>
      obtain ⟨π, hπ, hlt⟩ := exists_perm (h p rfl)
      exact ⟨π, hlt, hπ⟩
  | none => exact ⟨1, rfl⟩

/-- Every operation in range does the same to both banks. -/
theorem Banks.run_both (hbanks : Banks f x g A)
    (hop : op.InRange (fun k => nRow (x k).1) (fun k => nCol (x k).1) A) :
    Both (op.run fun k => (x k).1) (op.run fun k => (x k).2) g fun a b g' =>
      a = b ∧ RanOp f x A op g' := by
  have htwin := hbanks.twin
  have hsource := hbanks.source
  cases op with
  | swapRows M r₁ r₂ =>
      have hboth := (htwin M).swapRows hop.1 hop.2
      refine hbanks.both_becomes hboth fun i j hk => ?_
      rw [Table.swapRows, Equiv.swap_apply_of_ne_of_ne (fun hi => hk ⟨rfl, Or.inl hi⟩)
        fun hi => hk ⟨rfl, Or.inr hi⟩]
  | clearRow M r =>
      have hboth := (htwin M).clearRow hop
      exact hbanks.both_becomes hboth fun i j hk => if_neg fun hi => hk ⟨rfl, hi⟩
  | multRow M r alpha =>
      have hboth := (htwin M).multRow hop (if alpha then 1 else 0)
      rw [el_scalar, map_scalar, el_scalar] at hboth
      exact hbanks.both_becomes hboth fun i j hk => if_neg fun hi => hk ⟨rfl, hi⟩
  | multaddRow M₁ r₁ alpha Mt rt =>
      obtain ⟨hcol, h₁, ht⟩ := hop
      have hboth := (htwin Mt).multaddRow (htwin M₁) (hsource M₁ Mt) hcol h₁ ht
        (if alpha then 1 else 0)
      rw [el_scalar, map_scalar, el_scalar] at hboth
      exact hbanks.both_becomes hboth fun i j hk => if_neg fun hi => hk ⟨rfl, hi.1⟩
  | multaddRowFrom M₁ r₁ offs alpha Mt rt =>
      obtain ⟨hcol, h₁, ht, hoffs⟩ := hop
      have hboth := (htwin Mt).multaddRowFrom (htwin M₁) (hsource M₁ Mt) hcol h₁ ht hoffs
        (if alpha then 1 else 0)
      rw [el_scalar, map_scalar, el_scalar] at hboth
      exact hbanks.both_becomes hboth fun i j hk => if_neg fun hi => hk ⟨rfl, hi⟩
  | copyRow M₁ r₁ Mt rt =>
      obtain ⟨hcol, h₁, ht⟩ := hop
      have hboth := (htwin Mt).copyRow (htwin M₁) (hsource M₁ Mt) hcol h₁ ht
      exact hbanks.both_becomes hboth fun i j hk => if_neg fun hi => hk ⟨rfl, hi⟩
  | rowIszero M r => exact both_test hbanks ((htwin M).rowIszero hop (hbanks.cols_pos M))
  | swapCols M c₁ c₂ =>
      have hboth := (htwin M).swapCols (hbanks.rows_pos M) hop.1 hop.2
      refine hbanks.both_becomes hboth fun i j hk => ?_
      rw [Table.swapCols, Equiv.swap_apply_of_ne_of_ne (fun hj => hk ⟨rfl, Or.inl hj⟩)
        fun hj => hk ⟨rfl, Or.inr hj⟩]
  | multColFrom M c offs alpha =>
      have hboth := (htwin M).multColFrom hop.1 hop.2 (if alpha then 1 else 0)
      rw [el_scalar, map_scalar, el_scalar] at hboth
      exact hbanks.both_becomes hboth fun i j hk => if_neg fun hi => hk ⟨rfl, hi⟩
  | copyCol M₁ c₁ Mt ct =>
      obtain ⟨hrow, h₁, ht⟩ := hop
      have hboth := (htwin Mt).copyCol (htwin M₁) (hsource M₁ Mt) hrow h₁ ht
      exact hbanks.both_becomes hboth fun i j hk => if_neg fun hj => hk ⟨rfl, hj⟩
  | iszero M => exact both_test hbanks ((htwin M).iszero (hbanks.cols_pos M))
  | clear M => exact hbanks.both_changed (htwin M).clear fun _ _ => rfl
  | copy B₁ B₂ =>
      have hboth := (htwin B₂).copy (htwin B₁) (hsource B₁ B₂) hop.1 hop.2
      exact hbanks.both_changed hboth fun _ _ => rfl
  | permuteRows M rowperm =>
      obtain ⟨π, hπ, hlt⟩ := exists_perm hop
      have hboth := (htwin M).permuteRows hlt hπ
      exact hbanks.both_changed (changed_of_both hboth) fun _ _ => rfl
  | permuteCols M colperm =>
      obtain ⟨π, hπ, hlt⟩ := exists_perm hop
      have hboth := (htwin M).permuteCols hlt hπ
      exact hbanks.both_changed (changed_of_both hboth) fun _ _ => rfl
  | add B₁ B₂ out =>
      obtain ⟨hrow, hcol, hrow', hcol'⟩ := hop
      have hboth := (htwin out).add (htwin B₁) (htwin B₂) (hsource B₁ out) (hsource B₂ out) hrow
        hcol hrow' hcol'
      exact hbanks.both_changed hboth fun _ _ => rfl
  | addInplace B₁ BInout =>
      have hboth := (htwin BInout).addInplace (htwin B₁) (hsource B₁ BInout) hop.1 hop.2
      exact hbanks.both_changed hboth fun _ _ => rfl
  | mul B₁ B₂ out =>
      obtain ⟨hdim, hrow, hcol⟩ := hop
      have hboth := (htwin out).mul (htwin B₁) (htwin B₂) (hsource B₁ out) (hsource B₂ out) hdim
        hrow hcol
      exact hbanks.both_changed hboth fun _ _ => rfl
  | luMult LU rp cp X Y =>
      obtain ⟨hdim, hrow, hcol, hrp, hcp⟩ := hop
      have hboth := (htwin Y).luMult (htwin LU) (htwin X) (hsource LU Y) (hsource X Y) hdim hrow
        hcol hrp hcp
      exact hbanks.both_changed hboth fun _ _ => rfl
  | luMultInplace LU rp cp X =>
      obtain ⟨hcol, hrow, hrp, hcp⟩ := hop
      obtain ⟨π, hπ⟩ := exists_listsOpt hrp
      obtain ⟨τ, hτ⟩ := exists_listsOpt hcp
      have hboth := (htwin X).luMultInplace (htwin LU) (hsource LU X) (hbanks.rows_pos X) hcol hrow
        hπ hτ
      exact hbanks.both_changed hboth fun _ _ => rfl
  | luInvmult LU rank rp cp Y X =>
      obtain ⟨hne, hdim, hrow, hcol, hrp, hcp, hrank, hpivots⟩ := hop
      obtain ⟨hrankr, hrankc⟩ := rankIn_solveRank hrank
      have hboth := (htwin X).luInvmult (htwin LU) (htwin Y) (hbanks.apart X LU hne.symm)
        (hsource Y X) hdim hrow hcol hrp hcp hrankr hrankc hpivots
      exact hbanks.both_changed hboth fun _ _ => rfl
  | luInvmultInplace LU rank rp cp X =>
      obtain ⟨hne, hcol, hrow, hrp, hcp, hrank, hpivots⟩ := hop
      obtain ⟨hrankr, hrankc⟩ := rankIn_solveRank hrank
      obtain ⟨π, hπ⟩ := exists_listsOpt hrp
      obtain ⟨τ, hτ⟩ := exists_listsOpt hcp
      have hboth := (htwin X).luInvmultInplace (htwin LU) (hbanks.apart X LU hne.symm)
        (hbanks.rows_pos X) hcol hrow hπ hτ hrankr hrankc hpivots
      exact hbanks.both_changed hboth fun _ _ => rfl

end HeapView

end TvRQ
