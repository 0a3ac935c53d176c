/-
# Output symbols

`RqOutExecute` adds up rows of the intermediate block along the two walks of a
tuple.  The LT row of the constraint matrix has ones where the walks come by.
As no walk comes by twice, the symbol is the product of the row and the block.
-/

import TvRQ.Api.Out

namespace TvRQ

open Imperative Heap Finset

/-- The shift of the two translations is the same number. -/
theorem ofInt_pad {P : Parameters} (hP : P.Valid) :
    UInt32.ofInt (P.Kprime - P.K) = UInt32.ofNat P.nPad := by
  obtain ⟨hK', -⟩ := hP.fields_le
  have hle := hP.K_le
  have hpos := hP.one_le_K
  have hmod : (P.Kprime - P.K) % 2 ^ 32 = P.Kprime - P.K :=
    Int.emod_eq_of_lt (by omega) (by omega)
  unfold UInt32.ofInt Parameters.nPad
  rw [hmod]

/-- Both translations of an ID give the same internal symbol ID. -/
theorem tupleGenerateFromESI_eq {P : Parameters} (hP : P.Valid) (X : UInt32) :
    tupleGenerateFromESI X P = tupleGenerateFromISI (esiToISI P X) P := by
  unfold tupleGenerateFromESI esiToISI
  rw [ofInt_pad hP]
  split_ifs
  · rfl
  · rw [UInt32.add_zero]

/-- The symbols of the IDs: the product of their LT rows with the block. -/
def symbolTable (P : Parameters) (ids : List UInt32) (C : Table GF256) : Table GF256 :=
  fun i c => ∑ j ∈ range P.L, constraintMatrix P ids i j * C j c

section Execute

variable {P : Parameters} {ids : List UInt32} {prog : RqOutProgram} {nSymSize size : ℕ}
  {I O : M256v} {h : Heap UInt8} {B C : Table GF256}

/-- Computing one symbol. -/
theorem symbol_ends (hP : P.Valid) (X : UInt32) (hI : I.Holds h C) (hO : O.Holds h B)
    (hdisj : Disjoint O.cells I.cells) (hcol : I.nCol = O.nCol) (hrow : I.nRow = P.L) {i : ℕ}
    (hi : i < O.nRow) :
    Ends (do
      let T ← embed (tupleGenerateFromESI X P)
      I.copyRow T.b O i
      let _ ← foldRange 1 T.d T.b fun _ b => do
        let b := (b + T.a) % P.W
        I.multaddRow b 1 O i
        pure b
      let b1 ← embed (skipPi P T.a1 T.b1)
      I.multaddRow (P.W + b1) 1 O i
      let _ ← foldRange 1 T.d1 b1 fun _ b1 => do
        let b1 ← embed (stepPi P T.a1 b1)
        I.multaddRow (P.W + b1) 1 O i
        pure b1
      pure ()) h fun _ h' =>
        O.Holds h' (fun r c =>
          if r = i then ∑ j ∈ range P.L, isiRow P (esiToISI P X) j * C j c else B r c) ∧
        AgreeOff O.cells h h' := by
  obtain ⟨T, hT, hTvalid⟩ := tupleGenerateFromISI_spec hP (esiToISI P X)
  -- Row `i` of the output is the sum of the rows visited so far.
  let J : List ℕ → Heap UInt8 → Prop := fun l h' =>
    O.Holds h' (fun r c => if r = i then (l.map fun j => C j c).sum else B r c) ∧
      AgreeOff O.cells h h'
  have hvisit : ∀ l c h', c < P.L → J l h' →
      Ends (I.multaddRow c 1 O i) h' fun _ => J (l ++ [c]) := by
    intro l c h' hc hJ
    have hI' := hI.agreeOff hJ.2 hdisj
    refine (M256v.multaddRowFrom_ends hJ.1 hcol (by omega) hi (Nat.zero_le _)
      (hI'.source_of_disjoint hcol (by omega) hi hdisj) 1).mono fun _ h'' hpost =>
        ⟨hpost.1.congr fun r _ j _ => ?_,
          hJ.2.trans (hpost.2.mono (M256v.rowCells_subset hi))⟩
    by_cases hr : r = i
    · simp [Table.multaddRowFrom, hr]
    · simp [Table.multaddRowFrom, hr]
  have hb := hTvalid.b_lt
  have hL := hP.W_add_P
  rw [ends_bind, ends_embed, tupleGenerateFromESI_eq hP]
  refine ⟨T, hT, ?_⟩
  refine (M256v.copyRow_ends hO hcol (by omega) hi
    (hI.source_of_disjoint hcol (by omega) hi hdisj)).bind fun _ h₁ h₁p => ?_
  have h₁J : J [T.b] h₁ := by
    refine ⟨h₁p.1.congr fun r _ c _ => ?_, h₁p.2.mono (M256v.rowCells_subset hi)⟩
    by_cases hr : r = i
    · simp [Table.copyRow, hr]
    · simp [Table.copyRow, hr]
  refine (bWalk_ends hP hTvalid hvisit h₁J).bind fun _ h₂ h₂J => ?_
  refine (piWalk_ends hP hTvalid hvisit h₂J).mono fun _ h₃ h₃J =>
    ⟨h₃J.1.congr fun r _ c _ => ?_, h₃J.2⟩
  by_cases hr : r = i
  · have hrow_eq : ∀ j, isiRow P (esiToISI P X) j = ltRow P T j := fun j => by rw [isiRow, hT]
    simp only [hr, if_true, hrow_eq]
    exact (sum_ltRow_mul hP hTvalid fun j => C j c).symm
  · simp only [hr, if_false]

/-- The output holds the symbols of all IDs. -/
theorem rqOutExecute_ends {interSymMem outSymMem : Ptr} (hP : P.Valid) (hparams : prog.params = P)
    (hnESI : prog.nESI = ids.length) (hids : StoresIds prog.ESIs ids.length ids)
    (hsymSize : nSymSize < 2 ^ 31) (hsize : ids.length * nSymSize ≤ size)
    (hI : (M256v.make P.L nSymSize interSymMem).Holds h C)
    (hO : (M256v.make ids.length nSymSize outSymMem).Holds h B)
    (hdisj : Disjoint (M256v.make ids.length nSymSize outSymMem).cells
      (M256v.make P.L nSymSize interSymMem).cells) :
    Ends (rqOutExecute prog nSymSize interSymMem outSymMem size) h fun ret h' => ret = 0 ∧
      (M256v.make ids.length nSymSize outSymMem).Holds h' (symbolTable P ids C) ∧
        AgreeOff (M256v.make ids.length nSymSize outSymMem).cells h h' := by
  have hint : intOfSize nSymSize = .ok nSymSize := if_pos hsymSize
  unfold rqOutExecute
  rw [hnESI, Int.toNat_natCast, if_neg (not_lt.mpr hsize), ends_bind, ends_embed]
  refine ⟨_, hint, ?_⟩
  rw [hparams]
  let S : ℕ → Table GF256 := fun k i c => if i < k then symbolTable P ids C i c else B i c
  refine (forRange_ends (fun k h' =>
    (M256v.make ids.length nSymSize outSymMem).Holds h' (S k) ∧
      AgreeOff (M256v.make ids.length nSymSize outSymMem).cells h h') (Nat.zero_le _)
    (fun k h₁ _ hk hI₁ => ?_) ⟨hO.congr fun i _ c _ => by simp [S], AgreeOff.refl _ h⟩).bind
    fun _ h' hpost => ends_pure.mpr ⟨rfl, hpost.1.congr fun i hi c _ => if_pos hi, hpost.2⟩
  rw [ends_bind, ends_readArray]
  refine ⟨_, hids.get_eq k hk, ?_⟩
  refine (symbol_ends hP _ (hI.agreeOff hI₁.2 hdisj) hI₁.1 hdisj rfl rfl hk).mono
    fun _ h₂ hpost => ⟨hpost.1.congr fun i _ c _ => ?_, hI₁.2.trans hpost.2⟩
  by_cases hi : i = k
  · subst hi
    simp only [S, Nat.lt_succ_self, if_true, symbolTable, constraintMatrix_id P hk]
  · have hiff : i < k + 1 ↔ i < k := by omega
    simp only [S, hi, if_false, hiff]

/-- For every supported number of symbols, every list of IDs and every
intermediate block, the symbols that are added up along the walks are the
products of the block with the rows that `rq_matrix_generate` writes for the
same IDs.  The shift of an ID may wrap around. -/
theorem rqOutExecute_eq_constraint {K : ℤ} (hget : parametersGet K = .ok P) (hK : P.K ≠ -1)
    (hparams : prog.params = P) (hnESI : prog.nESI = ids.length)
    (hids : StoresIds prog.ESIs ids.length ids) (hsymSize : nSymSize < 2 ^ 31)
    (hsize : ids.length * nSymSize ≤ size) {interSymMem outSymMem : Ptr}
    (hI : (M256v.make P.L nSymSize interSymMem).Holds h C)
    (hO : (M256v.make ids.length nSymSize outSymMem).Holds h B)
    (hdisj : Disjoint (M256v.make ids.length nSymSize outSymMem).cells
      (M256v.make P.L nSymSize interSymMem).cells)
    {M : M256v} {g : Heap UInt8} {A : Table GF256} (hM : M.Holds g A)
    (hrow : M.nRow = constraintRows P ids) (hcol : M.nCol = P.L) :
    ∃ R, Ends (rqMatrixGenerate M P ids.length prog.ESIs) g (fun _ g' => M.Holds g' R) ∧
      Ends (rqOutExecute prog nSymSize interSymMem outSymMem size) h fun ret h' => ret = 0 ∧
        (M256v.make ids.length nSymSize outSymMem).Holds h' fun i c =>
          ∑ j ∈ range P.L, R i j * C j c := by
  have hP := parametersGet_valid hget hK
  refine ⟨constraintMatrix P ids, ?_, ?_⟩
  · exact (rqMatrixGenerate_ends hP hids hM hrow hcol).mono fun _ _ hpost => hpost.1
  · refine (rqOutExecute_ends hP hparams hnESI hids hsymSize hsize hI hO hdisj).mono ?_
    exact fun _ _ hpost => ⟨hpost.1, hpost.2.1⟩

end Execute

/-- The largest ID, whose shift wraps around to 0. -/
theorem rqOutExecute_eq_constraint_wrap :
    ∃ R, Ends (rqMatrixGenerate (.make 19 29 ⟨0, 0⟩) params11 1 #[4294967295])
        ⟨#[Array.replicate 551 0]⟩ (fun _ g' => (M256v.make 19 29 ⟨0, 0⟩).Holds g' R) ∧
      Ends (rqOutExecute ⟨params11, 0, 1, #[4294967295]⟩ 1 ⟨0, 0⟩ ⟨1, 0⟩ 1)
        ⟨#[Array.replicate 29 7, #[0]]⟩ fun ret h' => ret = 0 ∧
          (M256v.make 1 1 ⟨1, 0⟩).Holds h' fun i c =>
            ∑ j ∈ range 29, R i j * M256v.rowMajor 1 (Array.replicate 29 7) j c := by
  have hids : StoresIds #[4294967295] 1 [4294967295] := storesIds_toArray [4294967295]
  have hI : (M256v.make params11.L 1 ⟨0, 0⟩).Holds ⟨#[Array.replicate 29 7, #[0]]⟩
      (M256v.rowMajor 1 (Array.replicate 29 7)) := M256v.holds_make rfl (by decide)
  have hO : (M256v.make 1 1 ⟨1, 0⟩).Holds ⟨#[Array.replicate 29 7, #[0]]⟩
      (M256v.rowMajor 1 #[0]) := M256v.holds_make rfl (by decide)
  have hM : (M256v.make 19 29 ⟨0, 0⟩).Holds ⟨#[Array.replicate 551 0]⟩
      (M256v.rowMajor 29 (Array.replicate 551 0)) := M256v.holds_make rfl (by simp)
  exact @rqOutExecute_eq_constraint params11 [4294967295] ⟨params11, 0, 1, #[4294967295]⟩ 1 1
    _ _ _ 11 parametersGet_eleven (by decide) rfl rfl hids (by decide) le_rfl _ _ hI hO
    (M256v.disjoint_cells_of_blk (by decide)) _ _ _ hM rfl rfl

end TvRQ
