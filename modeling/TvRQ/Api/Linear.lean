/-
# Linear in the symbols

The block that is solved for and the symbols that are computed from it depend on
the symbols that go in linearly, column by column.  So it makes no difference
whether symbols are cut into smaller ones, put together, added or multiplied by
scalars before a pass or behind it.  For this it does not matter whether the
symbols that go in are those of any block.
-/

import TvRQ.Api.RoundTrip

namespace TvRQ

open Imperative Heap Elimination Finset

variable {P : Parameters} {ids outIds : List UInt32} {w₁ w₂ w : ℕ}
  {M₁ M₂ A B Y₁ Y₂ C₁ C₂ C : Table GF256}

/-- The entries of a row are combinations of the entries of the same row of two tables. -/
def mix (w₁ w₂ : ℕ) (M₁ M₂ A B : Table GF256) : Table GF256 := fun r c =>
  ∑ k ∈ range w₁, A r k * M₁ k c + ∑ k ∈ range w₂, B r k * M₂ k c

/-- A combination of rows is taken in each of the tables. -/
theorem sum_mul_mix (a : ℕ → GF256) (n c : ℕ) :
    ∑ j ∈ range n, a j * mix w₁ w₂ M₁ M₂ A B j c =
      ∑ k ∈ range w₁, (∑ j ∈ range n, a j * A j k) * M₁ k c +
        ∑ k ∈ range w₂, (∑ j ∈ range n, a j * B j k) * M₂ k c := by
  have hside : ∀ (v : ℕ) (M T : Table GF256), ∑ j ∈ range n, a j * ∑ k ∈ range v, T j k * M k c =
      ∑ k ∈ range v, (∑ j ∈ range n, a j * T j k) * M k c := by
    intro v M T
    simp only [mul_sum, sum_mul, mul_assoc]
    exact sum_comm
  simp only [mix, mul_add, sum_add_distrib, hside]

/-- The right-hand side of the combination. -/
theorem rhs_mix (n r c : ℕ) : rhs n (mix w₁ w₂ M₁ M₂ A B) r c =
    ∑ k ∈ range w₁, rhs n A r k * M₁ k c + ∑ k ∈ range w₂, rhs n B r k * M₂ k c := by
  unfold rhs
  split_ifs
  · rfl
  · simp

theorem symbolTable_mix :
    symbolTable P outIds (mix w₁ w₂ M₁ M₂ A B) =
      mix w₁ w₂ M₁ M₂ (symbolTable P outIds A) (symbolTable P outIds B) := by
  funext i c
  exact sum_mul_mix _ _ _

/-- The block of the combination is the combination of the blocks. -/
theorem PivotSolution.mix {ρ : ℕ → ℕ} (h₁ : PivotSolution P ids ρ w₁ Y₁ C₁)
    (h₂ : PivotSolution P ids ρ w₂ Y₂ C₂)
    (h : PivotSolution P ids ρ w (TvRQ.mix w₁ w₂ M₁ M₂ Y₁ Y₂) C) :
    ∀ j < P.L, ∀ c < w, C j c = TvRQ.mix w₁ w₂ M₁ M₂ C₁ C₂ j c := by
  have hrow : ∀ {v : ℕ} {Y D : Table GF256}, PivotSolution P ids ρ v Y D → ∀ i < P.L, ∀ k < v,
      ∑ j ∈ range P.L, constraintMatrix P ids (ρ i) j * D j k = rhs ids.length Y (ρ i) k :=
    fun hD i hi k hk => (hD k hk fun j => _).mpr (fun _ _ => rfl) i hi
  intro j hj c hc
  symm
  refine (h c hc fun j => TvRQ.mix w₁ w₂ M₁ M₂ C₁ C₂ j c).mp (fun i hi => ?_) j hj
  rw [sum_mul_mix, rhs_mix]
  congr 1
  · exact sum_congr rfl fun k hk => by rw [hrow h₁ i hi k (mem_range.mp hk)]
  · exact sum_congr rfl fun k hk => by rw [hrow h₂ i hi k (mem_range.mp hk)]

/-- For every supported number of symbols and all lists of IDs that compile: a
pass for combinations of the symbols of two other passes, which may have other
symbol sizes, gives the same combinations of what these give. -/
theorem passes_mix {K : ℤ} (hget : parametersGet K = .ok P) (hK : P.K ≠ -1)
    (hfull : FullRank P ids) {p q r : Pass} {g h k : Heap UInt8} (hp : p.Fits P ids outIds g)
    (hq : q.Fits P ids outIds h) (hr : r.Fits P ids outIds k)
    (hY₁ : (p.inView ids.length).Holds g Y₁) (hY₂ : (q.inView ids.length).Holds h Y₂)
    (hY : (r.inView ids.length).Holds k (mix p.symSize q.symSize M₁ M₂ Y₁ Y₂)) :
    Ends p.run g fun err g' => err = 0 ∧ ∃ C₁ Z₁, (p.interView P).Holds g' C₁ ∧
      (p.outView outIds.length).Holds g' Z₁ ∧
        Ends q.run h fun err h' => err = 0 ∧ ∃ C₂ Z₂, (q.interView P).Holds h' C₂ ∧
          (q.outView outIds.length).Holds h' Z₂ ∧
            Ends r.run k fun err k' => err = 0 ∧
              (r.interView P).Holds k' (mix p.symSize q.symSize M₁ M₂ C₁ C₂) ∧
                (r.outView outIds.length).Holds k' (mix p.symSize q.symSize M₁ M₂ Z₁ Z₂) := by
  have hP := parametersGet_valid hget hK
  have hcompiles : ∀ {x : Pass} {f : Heap UInt8}, x.Fits P ids outIds f → x.Compiles f :=
    fun hx => (rqInterCompile_ret_zero hP hx.compile).mpr hfull
  apply (Pass.run_pivots hP hp (hcompiles hp) hY₁).mono
  rintro err g' ⟨herr, t, C₁, hrun, h₁, hC₁, hZ₁⟩
  refine ⟨herr, C₁, _, hC₁, hZ₁, ?_⟩
  apply (Pass.run_pivots hP hq (hcompiles hq) hY₂).mono
  rintro err h' ⟨herr, t₂, C₂, hrun₂, h₂, hC₂, hZ₂⟩
  refine ⟨herr, C₂, _, hC₂, hZ₂, ?_⟩
  apply (Pass.run_pivots hP hr (hcompiles hr) hY).mono
  rintro err k' ⟨herr, t₃, C, hrun₃, h₃, hC, hZ⟩
  obtain ⟨-, rfl⟩ := hrun.unique hrun₂
  obtain ⟨-, rfl⟩ := hrun.unique hrun₃
  have hmix := h₁.mix h₂ h₃
  refine ⟨herr, hC.congr fun j hj c hc => hmix j hj c hc, hZ.congr fun i _ c hc => ?_⟩
  rw [← symbolTable_mix]
  exact symbolTable_congr fun j hj => hmix j hj c hc

/-- The sum of twice the first table and the second one. -/
def doubleAndAdd (A B : Table GF256) : Table GF256 := mix 1 1 (fun _ _ => ⟨2⟩) (fun _ _ => 1) A B

/-- Ten symbols of one byte. -/
def lowTen : Table GF256 := M256v.rowMajor 1 #[0, 1, 2, 3, 4, 5, 6, 7, 8, 9]

def highTen : Table GF256 := M256v.rowMajor 1 #[255, 254, 253, 252, 251, 250, 249, 248, 247, 246]

/-- The pass from ten symbols of a table to twelve others. -/
def tenHeap (Y : Table GF256) : Heap UInt8 :=
  smallHeap 877 (Array.ofFn fun i : Fin 10 => (Y i 0).byte) 12

theorem passes_mix_ten :
    Ends (smallPass sourceIds receivedIds 877).run (tenHeap lowTen) fun err g' => err = 0 ∧
      ∃ Z₁, (M256v.make 12 1 ⟨3, 0⟩).Holds g' Z₁ ∧
        Ends (smallPass sourceIds receivedIds 877).run (tenHeap highTen) fun err h' => err = 0 ∧
          ∃ Z₂, (M256v.make 12 1 ⟨3, 0⟩).Holds h' Z₂ ∧
            Ends (smallPass sourceIds receivedIds 877).run (tenHeap (doubleAndAdd lowTen highTen))
              fun err k' => err = 0 ∧
                (M256v.make 12 1 ⟨3, 0⟩).Holds k' (doubleAndAdd Z₁ Z₂) := by
  have hfits := fun Y : Table GF256 => smallPass_fits sourceIds receivedIds 877
    (Array.ofFn fun i : Fin 10 => (Y i 0).byte) (by decide) (by decide +kernel)
  apply (passes_mix parametersGet_ten (by decide) fullRank_sourceIds (hfits lowTen)
    (hfits highTen) (hfits (doubleAndAdd lowTen highTen)) (holds_smallHeap 877 10 12 lowTen)
    (holds_smallHeap 877 10 12 highTen)
    (holds_smallHeap 877 10 12 (doubleAndAdd lowTen highTen))).mono
  rintro err g' ⟨herr, C₁, Z₁, -, hZ₁, hrest⟩
  refine ⟨herr, Z₁, hZ₁, hrest.mono ?_⟩
  rintro err h' ⟨herr, C₂, Z₂, -, hZ₂, hrest⟩
  refine ⟨herr, Z₂, hZ₂, hrest.mono ?_⟩
  rintro err k' ⟨herr, -, hZ⟩
  exact ⟨herr, hZ⟩

end TvRQ
