/-
# The degree of an LT row

A tuple says how many columns of each kind its row has.  The loops that skip
residues end from every residue, and as the two walks never come by a column
twice, the row that is written has as many ones as the tuple says.
-/

import TvRQ.Api.Solution

namespace TvRQ

open Imperative Heap PrimeWalk Finset

section Degree

variable {P : Parameters} {T : Tuple}

/-- A residue below `P` is reached from every residue. -/
theorem exists_skipPi (hP : P.Valid) (hT : T.Valid P) {b1 : ℕ} (hb1 : b1 < P.P1) :
    ∃ y < P.P, skipPi P T.a1 b1 = .ok y := by
  obtain ⟨rest, hrest⟩ := walk_eq_cons (a := T.a1) hb1
  have hpos := hP.P_ge
  have hzero : 0 ∈ walk P.P1 T.a1 b1 :=
    (walk_perm hP.P1_prime hT.a1_pos hT.a1_lt b1).mem_iff.mpr (List.mem_range.mpr (by omega))
  have hlen := length_walk P.P1 T.a1 b1
  rw [hrest, List.length_cons] at hlen
  rw [hrest] at hzero
  obtain ⟨y, _, hrun, hstop, -⟩ := whileLoop_chain (fun x => decide (P.P ≤ x))
    (hrest ▸ walk_chain P.P1 T.a1 b1) ⟨0, hzero, by simpa using by omega⟩
    (show rest.length < P.P1 + 1 by omega)
  exact ⟨y, by simpa using hstop, hrun⟩

/-- Stepping first makes no difference for that. -/
theorem exists_stepPi (hP : P.Valid) (hT : T.Valid P) (b1 : ℕ) :
    ∃ y < P.P, stepPi P T.a1 b1 = .ok y := by
  have hpos := hP.P_ge
  have hle := hP.P_le_P1
  exact exists_skipPi hP hT (Nat.mod_lt (b1 + T.a1) (by omega))

theorem mem_ltColumns_low {c : ℕ} (hc : c < P.W) : c ∈ ltColumns P T ↔ c ∈ bColumns P T := by
  rw [ltColumns, List.mem_append]
  apply or_iff_left
  intro hpi
  obtain ⟨x, -, rfl⟩ := List.mem_map.mp hpi
  omega

theorem mem_ltColumns_high {c : ℕ} (hc : P.W ≤ c) : c ∈ ltColumns P T ↔ c ∈ piColumns P T := by
  rw [ltColumns, List.mem_append]
  apply or_iff_right
  intro hb
  have := mem_bColumns_lt hb
  omega

theorem length_bColumns (hT : T.Valid P) : (bColumns P T).length = T.d := by
  rw [bColumns, List.length_take, length_walk, min_eq_left hT.d_le]

theorem length_piColumns (hP : P.Valid) (hT : T.Valid P) : (piColumns P T).length = T.d1 := by
  have hge := hP.P_ge
  have hd1 := hT.d1_le
  rw [piColumns, List.length_map, List.length_take, length_piHits hP hT, min_eq_left (by omega)]

/-- The row of `M` has exactly `d` ones below `W` and `d1` ones from there on. -/
structure HasDegrees (P : Parameters) (d d1 : ℕ) (row : ℕ → GF256) : Prop where
  entry : ∀ c < P.L, row c = 1 ∨ row c = 0
  low : ((range P.W).filter fun c => row c = 1).card = d
  high : ((Ico P.W P.L).filter fun c => row c = 1).card = d1

theorem ltRow_eq_one {c : ℕ} : ltRow P T c = 1 ↔ c ∈ ltColumns P T := by
  unfold ltRow
  split_ifs with hc
  · simp [hc]
  · simp [hc]

theorem ltRow_hasDegrees (hP : P.Valid) (hT : T.Valid P) :
    HasDegrees P T.d T.d1 (ltRow P T) := by
  have hnodup := List.nodup_append.mp (ltColumns_nodup hP hT)
  constructor
  case entry =>
    intro c _
    unfold ltRow
    split_ifs
    · exact Or.inl rfl
    · exact Or.inr rfl
  case low =>
    have hset : ((range P.W).filter fun c => ltRow P T c = 1) = (bColumns P T).toFinset := by
      ext c
      rw [mem_filter, mem_range, ltRow_eq_one, List.mem_toFinset]
      constructor
      · rintro ⟨hc, hmem⟩
        exact (mem_ltColumns_low hc).mp hmem
      · intro hmem
        have hc := mem_bColumns_lt hmem
        exact ⟨hc, (mem_ltColumns_low hc).mpr hmem⟩
    rw [hset, List.toFinset_card_of_nodup hnodup.1, length_bColumns hT]
  case high =>
    have hset : ((Ico P.W P.L).filter fun c => ltRow P T c = 1) = (piColumns P T).toFinset := by
      ext c
      rw [mem_filter, mem_Ico, ltRow_eq_one, List.mem_toFinset]
      constructor
      · rintro ⟨⟨hc, -⟩, hmem⟩
        exact (mem_ltColumns_high hc).mp hmem
      · intro hmem
        have hcol : c ∈ ltColumns P T := List.mem_append_right _ hmem
        obtain ⟨x, -, rfl⟩ := List.mem_map.mp hmem
        exact ⟨⟨Nat.le_add_right _ _, mem_ltColumns_lt hP hcol⟩, hcol⟩
    rw [hset, List.toFinset_card_of_nodup hnodup.2.1, length_piColumns hP hT]

end Degree

/-- For every supported number of symbols and every internal symbol ID there is a
tuple and its numbers are in range.  All loops that skip residues end, all
columns that are visited exist, the row that is written has the degrees of the
tuple, and every call of `RqOutExecute` returns. -/
theorem ltRow_exact_degree {K : ℤ} {P : Parameters} (hget : parametersGet K = .ok P)
    (hK : P.K ≠ -1) (X : UInt32) :
    ∃ T, tupleGenerateFromISI X P = .ok T ∧
      (1 ≤ T.d ∧ T.d ≤ P.W - 2 ∧ 1 ≤ T.a ∧ T.a < P.W ∧ T.b < P.W ∧ (T.d1 = 2 ∨ T.d1 = 3) ∧
        1 ≤ T.a1 ∧ T.a1 < P.P1 ∧ T.b1 < P.P1) ∧
      (∀ b1 < P.P1, (∃ y < P.P, skipPi P T.a1 b1 = .ok y) ∧
        ∃ y < P.P, stepPi P T.a1 b1 = .ok y) ∧
      (∀ c ∈ ltColumns P T, c < P.L) ∧
      (∀ {M : M256v} {h A ISIs i}, M.Holds h A → M.nRow = ISIs.size → M.nCol = P.L →
        ISIs[i]? = some X → Ends (ltGenerateMat M P ISIs.size ISIs) h fun _ h' =>
          ∃ B, M.Holds h' B ∧ HasDegrees P T.d T.d1 (B i)) ∧
      ∀ {ids prog nSymSize interMem outMem outSize C g},
        OutInput P ids prog nSymSize interMem outMem outSize C g →
          Ends (rqOutExecute prog nSymSize interMem outMem outSize) g fun ret _ => ret = 0 := by
  have hP := parametersGet_valid hget hK
  obtain ⟨T, hT, hvalid, hdegrees⟩ := tupleGenerateFromISI_degrees hP X
  refine ⟨T, hT, ?_, ?_, fun c hc => mem_ltColumns_lt hP hc, ?_, ?_⟩
  · exact ⟨hvalid.d_pos, hdegrees.d_le, hvalid.a_pos, hvalid.a_lt, hvalid.b_lt, hdegrees.d1_eq,
      hvalid.a1_pos, hvalid.a1_lt, hvalid.b1_lt⟩
  · exact fun b1 hb1 => ⟨exists_skipPi hP hvalid hb1, exists_stepPi hP hvalid b1⟩
  · intro M h A ISIs i hA hrow hcol hi
    apply (ltGenerateMat_ends hP hA hrow hcol rfl).mono
    rintro _ h' ⟨hholds, -⟩
    refine ⟨_, hholds, ?_⟩
    have hrow_eq : (fun c => isiRow P (ISIs.getD i 0) c) = ltRow P T := by
      funext c
      rw [Array.getD_eq_getD_getElem?, hi, Option.getD_some, isiRow, hT]
    simp only [hrow_eq]
    exact ltRow_hasDegrees hP hvalid
  · intro ids prog nSymSize interMem outMem outSize C g hin
    obtain ⟨B, hB⟩ := hin.block
    apply (rqOutExecute_ends hP hin.params_eq hin.nESI_eq hin.ids_eq hin.symSize_lt hin.size_ge
      hin.inter hB hin.apart).mono
    rintro ret _ ⟨hret, -⟩
    exact hret

/-- Ten symbols, the first row of the source symbols over junk. -/
theorem ltRow_exact_degree_ten :
    ∃ T, tupleGenerateFromISI 0 params10 = .ok T ∧
      (∃ y < params10.P, skipPi params10 T.a1 0 = .ok y) ∧
      (Ends (ltGenerateMat (.make 10 27 ⟨0, 0⟩) params10 10 sourceIds.toArray)
        ⟨#[Array.replicate 270 255]⟩ fun _ h' => ∃ B,
          (M256v.make 10 27 ⟨0, 0⟩).Holds h' B ∧ HasDegrees params10 T.d T.d1 (B 0)) ∧
      Ends (rqOutExecute ⟨params10, 0, 10, sourceIds.toArray⟩ 1 ⟨0, 0⟩ ⟨1, 0⟩ 10)
        ⟨#[Array.replicate 27 7, Array.replicate 10 255]⟩ fun ret _ => ret = 0 := by
  obtain ⟨T, hT, -, hloops, -, hrow, hout⟩ :=
    ltRow_exact_degree parametersGet_ten (by decide) 0
  refine ⟨T, hT, (hloops 0 (by decide)).1, ?_, ?_⟩
  · have hids : sourceIds.toArray[0]? = some 0 := by decide
    have hblock : (M256v.make 10 27 ⟨0, 0⟩).Holds ⟨#[Array.replicate 270 255]⟩
        (M256v.rowMajor 27 (Array.replicate 270 255)) := M256v.holds_make rfl (by simp)
    have hends := hrow hblock (show 10 = sourceIds.toArray.size by decide) rfl hids
    exact hends
  · exact hout (C := M256v.rowMajor 1 (Array.replicate 27 7))
      { params_eq := rfl
        nESI_eq := rfl
        ids_eq := storesIds_toArray sourceIds
        symSize_lt := by decide
        size_ge := le_rfl
        inter := M256v.holds_make rfl (by decide)
        block := ⟨_, M256v.holds_make rfl (show 10 * 1 ≤ 10 by decide)⟩
        apart := M256v.disjoint_cells_of_blk (show 1 ≠ 0 by decide) }

end TvRQ
