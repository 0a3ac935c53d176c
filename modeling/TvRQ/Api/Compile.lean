/-
# Compiling programs

`RqInterCompile` decomposes the constraint matrix of the IDs in the program
memory.  It succeeds exactly when the matrix has full column rank, so it does
not matter in which order and how often the IDs were added, and more IDs never
make it fail.  The checks of the column permutation never fail.
-/

import TvRQ.Algebra.M256vLu
import TvRQ.Api.AddIds
import TvRQ.Api.Sizes

namespace TvRQ

open Imperative Heap Elimination

/-- The constraint matrix of the IDs has full column rank. -/
def FullRank (P : Parameters) (ids : List UInt32) : Prop :=
  ((constraintMatrix P ids).toMatrix (constraintRows P ids) P.L).rank = P.L

noncomputable instance (P : Parameters) (ids : List UInt32) : Decidable (FullRank P ids) :=
  inferInstanceAs (Decidable (_ = _))

/-- What a caller hands to the compiler: work memory with the IDs, whose number
of rows is an `int`, and enough memory for the program. -/
structure CompileInput (P : Parameters) (ids : List UInt32) (w : RqWorkMem) (mem : Ptr)
    (size : ℕ) (h : Heap UInt8) : Prop where
  params_eq : w.params = P
  nESI_eq : w.nESI = ids.length
  ids_eq : StoresIds w.ESIs ids.length ids
  rows_lt : constraintRows P ids < 2 ^ 31
  size_ge : interMemNeeded w ≤ size
  room : mem.off + size ≤ h.blockSize mem.blk

/-- The view of the factors in program memory. -/
def luView (P : Parameters) (ids : List UInt32) (mem : Ptr) : M256v :=
  .make (constraintRows P ids) P.L (mem.add (sizeofInterProgram + 4 * constraintRows P ids))

variable {P : Parameters} {ids : List UInt32} {w : RqWorkMem} {mem : Ptr} {size : ℕ}
  {h : Heap UInt8}

/-- What a program contains after an elimination with `r` rounds has led to `t`. -/
structure CompiledTo (P : Parameters) (ids : List UInt32) (mem : Ptr) (r : ℕ) (t : State GF256)
    (prog : RqInterProgram) (h : Heap UInt8) : Prop where
  run : Run (constraintRows P ids) P.L 0 (State.init (constraintMatrix P ids)) r t
  nESI_eq : prog.nESI = ids.length
  rowperm : Lists prog.rowperm (constraintRows P ids) t.rowperm
  LU_eq : prog.LU = { luView P ids mem with nRow := if r < P.L then constraintRows P ids else r }
  holds : (luView P ids mem).Holds h t.mat

/-- The rows of the pivots stand first in the permutation. -/
theorem CompiledTo.getD_rowperm {r i : ℕ} {t : State GF256} {prog : RqInterProgram}
    (hprog : CompiledTo P ids mem r t prog h) (hi : i < r) :
    prog.rowperm.getD i 0 = t.rowperm i := by
  obtain ⟨q, hfinished⟩ := hprog.run.finished
  exact getD_of_getElem? hprog.rowperm.get_eq (hi.trans_le hfinished.rank_le_rows)

/-- The number of rows is computed as it is. -/
theorem CompileInput.interRows_eq (hP : P.Valid) (hin : CompileInput P ids w mem size h) :
    interRows w = constraintRows P ids := by
  have hK := hP.K_le
  have hrows := hin.rows_lt
  unfold interRows
  rw [hin.params_eq, hin.nESI_eq, wrap32_of_isInt]
  · unfold constraintRows Parameters.nPad
    omega
  · unfold constraintRows Parameters.nPad at hrows
    exact ⟨by omega, by omega⟩

/-- The memory has room for the factors behind the permutation. -/
theorem CompileInput.luView_room (hP : P.Valid) (hin : CompileInput P ids w mem size h) :
    (luView P ids mem).e.off + constraintRows P ids * P.L ≤ h.blockSize mem.blk := by
  have hrows := hin.rows_lt
  have hL := hP.fields_le.1.2.2.1
  have hmul : constraintRows P ids * P.L ≤ 2 ^ 31 * 60000 := Nat.mul_le_mul hrows.le hL
  have hneeded : interMemNeeded w =
      sizeofInterProgram + 4 * constraintRows P ids + constraintRows P ids * P.L := by
    unfold interMemNeeded
    rw [hin.interRows_eq hP, hin.params_eq]
    have hcast : (sizeofInterProgram : ℤ) + 4 * (constraintRows P ids : ℤ) +
        (constraintRows P ids : ℤ) * P.L = ((sizeofInterProgram + 4 * constraintRows P ids +
          constraintRows P ids * P.L : ℕ) : ℤ) := by push_cast; rfl
    rw [hcast, sizeOf64_natCast]
    unfold sizeofInterProgram
    omega
  have hsize := hin.size_ge
  have hroom := hin.room
  show mem.off + (sizeofInterProgram + 4 * constraintRows P ids) + constraintRows P ids * P.L ≤ _
  omega

/-- The compiler runs to its end. -/
theorem rqInterCompile_ends (hP : P.Valid) (hin : CompileInput P ids w mem size h) :
    Ends (rqInterCompile w mem size) h fun out h' => ∃ r t prog,
      out = (if r < P.L then rqErrInsuffIds else 0, some prog) ∧
        CompiledTo P ids mem r t prog h' ∧ AgreeOff (luView P ids mem).cells h h' := by
  have hrows := hin.interRows_eq hP
  obtain ⟨A, hA⟩ := M256v.exists_holds_make (hin.luView_room hP)
  have hcount : w.nESI.toNat = ids.length := by rw [hin.nESI_eq, Int.toNat_natCast]
  unfold rqInterCompile
  rw [if_neg (not_lt.mpr hin.size_ge), hrows, hin.params_eq, hcount, Int.toNat_natCast]
  refine (rqMatrixGenerate_ends hP hin.ids_eq hA rfl rfl).bind fun _ h₁ h₁p => ?_
  refine (M256v.luDecompInplace_run h₁p.1).bind fun out h₂ h₂p => ?_
  obtain ⟨rank, rowperm, colperm⟩ := out
  obtain ⟨t, hrun, hrowperm, hcolperm, hmat, hagree⟩ := h₂p
  obtain ⟨q, hfinished⟩ := hrun.finished
  have hle : rank ≤ P.L := hfinished.rank_le_cols
  have hagree' := h₁p.2.trans hagree
  dsimp only
  split_ifs with hlt
  · refine ends_pure.mpr ⟨rank, t, _, by rw [if_pos hlt], ?_, hagree'⟩
    exact {
      run := hrun
      nESI_eq := hin.nESI_eq
      rowperm := hrowperm
      LU_eq := by rw [if_pos hlt]; rfl
      holds := hmat }
  · have hrank : rank = P.L := by omega
    subst hrank
    -- The permutation that is checked here leaves every column in its place.
    have hcheck : Ends (forRange 0 P.L fun i => do
        let c ← readArray colperm i
        ensure (c = i)) h₂ fun _ h' => h' = h₂ := by
      refine forRange_ends (fun _ h' => h' = h₂) (Nat.zero_le _) (fun i h' _ hi hI => ?_) rfl
      rw [ends_bind, ends_readArray]
      exact ⟨_, hcolperm.get_eq i hi, ends_ensure.mpr ⟨hfinished.colperm_eq_self i, hI⟩⟩
    refine hcheck.bind fun _ h₃ h₃p => ?_
    subst h₃p
    refine ends_bind.mpr (ends_ensure.mpr ⟨rfl, ?_⟩)
    refine ends_pure.mpr ⟨P.L, t, _, by rw [if_neg hlt], ?_, hagree'⟩
    exact {
      run := hrun
      nESI_eq := hin.nESI_eq
      rowperm := hrowperm
      LU_eq := by rw [if_neg hlt]; rfl
      holds := hmat }

/-- The result of the compiler is decided by the rank. -/
theorem rqInterCompile_ret (hP : P.Valid) (hin : CompileInput P ids w mem size h) :
    Ends (rqInterCompile w mem size) h fun out _ =>
      out.1 = if FullRank P ids then 0 else rqErrInsuffIds := by
  refine (rqInterCompile_ends hP hin).mono fun out h' hpost => ?_
  obtain ⟨r, t, prog, rfl, hcompiled, -⟩ := hpost
  obtain ⟨q, hfinished⟩ := hcompiled.run.finished
  have hle : r ≤ P.L := hfinished.rank_le_cols
  have hiff : FullRank P ids ↔ ¬ r < P.L := by
    rw [FullRank, hfinished.rank_eq]
    omega
  by_cases hlt : r < P.L
  · simp [hiff, hlt]
  · simp [hiff, hlt]

theorem rqInterCompile_ret_zero (hP : P.Valid) (hin : CompileInput P ids w mem size h) :
    Ends (rqInterCompile w mem size) h (fun out _ => out.1 = 0) ↔ FullRank P ids := by
  obtain ⟨out, h', hrun, hret⟩ := rqInterCompile_ret hP hin
  rw [ends_of_run hrun, hret]
  by_cases hfull : FullRank P ids <;> simp [hfull, rqErrInsuffIds]

/-- The rows for the IDs of one list are among those of another one with all its IDs. -/
theorem constraintMatrix_rows {ids' : List UInt32} (hsub : ∀ X ∈ ids, X ∈ ids') :
    ∀ r < constraintRows P ids, ∃ r' < constraintRows P ids',
      ∀ c, constraintMatrix P ids' r' c = constraintMatrix P ids r c := by
  intro r hr
  unfold constraintRows at hr ⊢
  by_cases hid : r < ids.length
  · -- A row of an ID is the row of its first occurrence in the other list.
    have hmem : ids.getD r 0 ∈ ids' := by
      rw [List.getD_eq_getElem?_getD, List.getElem?_eq_getElem hid]
      exact hsub _ (List.getElem_mem hid)
    obtain ⟨r', hr', heq⟩ := List.mem_iff_getElem.mp hmem
    have hval : ids'.getD r' 0 = ids.getD r 0 := by
      rw [List.getD_eq_getElem?_getD, List.getElem?_eq_getElem hr']
      exact heq
    exact ⟨r', by omega, fun c => by
      rw [constraintMatrix_id P hr', constraintMatrix_id P hid, hval]⟩
  · -- The other rows have the same distance from the rows of the IDs.
    obtain ⟨k, rfl⟩ := Nat.exists_eq_add_of_le (not_lt.mp hid)
    exact ⟨ids'.length + k, by omega, constraintMatrix_tail P ids' ids k⟩

/-- More IDs never lower the rank. -/
theorem FullRank.of_subset {ids' : List UInt32} (hfull : FullRank P ids)
    (hsub : ∀ X ∈ ids, X ∈ ids') : FullRank P ids' :=
  Table.rank_eq_of_rows (constraintMatrix_rows hsub) hfull

/-- There are at least as many different IDs as there are source symbols. -/
theorem FullRank.K_le_dedup (hP : P.Valid) (hfull : FullRank P ids) : P.K ≤ ids.dedup.length := by
  have hdedup : FullRank P ids.dedup := hfull.of_subset fun X hX => List.mem_dedup.mpr hX
  have hrows : P.L ≤ constraintRows P ids.dedup := by
    rw [FullRank] at hdedup
    exact hdedup ▸ Matrix.rank_le_height _
  have hL := hP.L_eq
  have hK := hP.K_le
  unfold constraintRows Parameters.nPad at hrows
  omega

/-- For every supported number of symbols and every list of IDs the compiler
returns 0 exactly if the constraint matrix has full column rank, and no check
fails.  Lists with the same IDs succeed or fail together, and a list with more
IDs succeeds where one with fewer does. -/
theorem rqInterCompile_rank {K : ℤ} (hget : parametersGet K = .ok P) (hK : P.K ≠ -1)
    (hin : CompileInput P ids w mem size h) :
    Ends (rqInterCompile w mem size) h (fun out _ =>
      out.1 = if FullRank P ids then 0 else rqErrInsuffIds) ∧
      ∀ ids' w' mem' size' h', CompileInput P ids' w' mem' size' h' →
        ((∀ X, X ∈ ids ↔ X ∈ ids') →
          (Ends (rqInterCompile w mem size) h (fun out _ => out.1 = 0) ↔
            Ends (rqInterCompile w' mem' size') h' fun out _ => out.1 = 0)) ∧
        ((∀ X ∈ ids, X ∈ ids') →
          Ends (rqInterCompile w mem size) h (fun out _ => out.1 = 0) →
            Ends (rqInterCompile w' mem' size') h' fun out _ => out.1 = 0) := by
  have hP := parametersGet_valid hget hK
  refine ⟨rqInterCompile_ret hP hin, fun ids' w' mem' size' h' hin' => ?_⟩
  rw [rqInterCompile_ret_zero hP hin, rqInterCompile_ret_zero hP hin']
  constructor
  · intro hsame
    constructor
    · exact fun hfull => hfull.of_subset fun X hX => (hsame X).mp hX
    · exact fun hfull => hfull.of_subset fun X hX => (hsame X).mpr hX
  · exact fun hsub hfull => hfull.of_subset hsub

/-- The work memory for ten symbols with the IDs of a list. -/
def idsMem (ids : List UInt32) : RqWorkMem := ⟨params10, ids.length, ids.length, ids.toArray⟩

/-- Too few IDs, added once and twice. -/
theorem rqInterCompile_rank_repeated :
    Ends (rqInterCompile (idsMem [5]) ⟨0, 0⟩ 598) ⟨#[Array.replicate 598 0]⟩ (fun out _ =>
      out.1 = if FullRank params10 [5] then 0 else rqErrInsuffIds) ∧
    (Ends (rqInterCompile (idsMem [5]) ⟨0, 0⟩ 598) ⟨#[Array.replicate 598 0]⟩
        (fun out _ => out.1 = 0) ↔
      Ends (rqInterCompile (idsMem [5, 5]) ⟨0, 0⟩ 629) ⟨#[Array.replicate 629 0]⟩
        fun out _ => out.1 = 0) := by
  have hone : CompileInput params10 [5] (idsMem [5]) ⟨0, 0⟩ 598 ⟨#[Array.replicate 598 0]⟩ :=
    ⟨rfl, rfl, storesIds_toArray [5], by decide, by decide +kernel, by decide +kernel⟩
  have htwo : CompileInput params10 [5, 5] (idsMem [5, 5]) ⟨0, 0⟩ 629
      ⟨#[Array.replicate 629 0]⟩ :=
    ⟨rfl, rfl, storesIds_toArray [5, 5], by decide, by decide +kernel, by decide +kernel⟩
  have hboth := rqInterCompile_rank parametersGet_ten (by decide) hone
  exact ⟨hboth.1, (hboth.2 _ _ _ _ _ htwo).1 fun X => by simp⟩

end TvRQ
