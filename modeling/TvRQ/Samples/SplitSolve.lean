/-
# The test that solves a system in two parts

`stest_lusplit` of `m256v_splitsolve.c`.  It decomposes the rows at the top,
computes with regions of the factors, of the matrix and of the right-hand side
what is left for the rows at the bottom, solves that, and puts the unknowns
together in the rows of the right-hand side.  The views of one matrix that it
reads and writes in turn have no common cell, up to the last copy.
-/

import TvRQ.Algebra.M256vFactors
import TvRQ.Algebra.MvProduct
import TvRQ.Lib.TwoParts

namespace TvRQ

open Imperative Heap Elimination Finset MvGen M256v

/-! ## The test -/

/-- The number of columns of the right-hand side. -/
def dlen : ℕ := 4

/-- Replace the unknowns of the top part in the rows at the bottom. -/
def eliminateBottom (ABot BTops Y2Top ArBot Y2Bot : M256v) (nBotRows rankTop : ℕ) :
    Prog (Heap UInt8) Unit :=
  forRange 0 nBotRows fun i =>
    forRange 0 rankTop fun j => do
      let v ← ABot.getEl i j
      BTops.multaddRow j v ArBot i
      Y2Top.multaddRow j v Y2Bot i

def backsubstitute (BTops Y2Bot Y2Top : M256v) (rankTop nBotCol : ℕ) : Prog (Heap UInt8) Unit :=
  forRange 0 rankTop fun i =>
    forRange 0 nBotCol fun j => do
      let v ← BTops.getEl i j
      Y2Bot.multaddRow j v Y2Top i

/-- Solve the top part for its pivot unknowns; the views are `B_tops` and `Y2_top`. -/
def solveTop (LUTop Y2 : M256v) (nTopRows nCol rankTop : ℕ) (rpTop : Array ℕ) :
    Prog (Heap UInt8) (M256v × M256v) := do
  let LUTops ← LUTop.getSubview 0 0 nTopRows rankTop
  let BTops ← LUTop.getSubview 0 rankTop nTopRows (nCol - rankTop)
  uInvmultInplace LUTops rankTop BTops
  let Y2Top ← Y2.getSubview 0 0 nTopRows dlen
  luInvmultInplace LUTops rankTop (some rpTop) none Y2Top
  pure (BTops, Y2Top)

/-- Compute what is left of the bottom part; the views are `Ar_bot` and `Y2_bot`. -/
def reduceBottom (A Y2 BTops Y2Top : M256v) (nTopRows rankTop : ℕ) (cpTop : Array ℕ) :
    Prog (Heap UInt8) (M256v × M256v) := do
  let nBotRows := A.nRow - nTopRows
  let ABot ← A.getSubview nTopRows 0 nBotRows A.nCol
  MvMatrix.permuteCols ABot cpTop
  let ArBot ← ABot.getSubview 0 rankTop nBotRows (A.nCol - rankTop)
  let Y2Bot ← Y2.getSubview nTopRows 0 nBotRows dlen
  eliminateBottom ABot BTops Y2Top ArBot Y2Bot nBotRows rankTop
  pure (ArBot, Y2Bot)

/-- Replace the other unknowns in the solution of the top part and move them right
behind it. -/
def joinParts (BTops Y2Top Y2Bot Y2 : M256v) (nTopRows rankTop nBotCol : ℕ) :
    Prog (Heap UInt8) Unit := do
  backsubstitute BTops Y2Bot Y2Top rankTop nBotCol
  if rankTop < nTopRows then
    forRange 0 Y2Bot.nRow fun i => Y2Bot.copyRow i Y2 (rankTop + i)
  else
    pure ()

/-- Solve when the top part alone does not determine the unknowns. -/
def solveBothParts (A LUTop Y2 : M256v) (nTopRows rankTop : ℕ) (rpTop cpTop : Array ℕ) :
    Prog (Heap UInt8) Bool := do
  let nBotCol := A.nCol - rankTop
  let (BTops, Y2Top) ← solveTop LUTop Y2 nTopRows A.nCol rankTop rpTop
  let (ArBot, Y2Bot) ← reduceBottom A Y2 BTops Y2Top nTopRows rankTop cpTop
  let (rankBot, rpBot, _) ← luDecompInplace ArBot
  if rankBot ≠ nBotCol then
    pure false
  else do
    luInvmultInplace ArBot rankBot (some rpBot) none Y2Bot
    joinParts BTops Y2Top Y2Bot Y2 nTopRows rankTop nBotCol
    pure true

/-- Solve for the unknowns in the order of the pivots. -/
def solveSplit (A LUTop Y2 : M256v) (nTopRows rankTop : ℕ) (rpTop cpTop : Array ℕ) :
    Prog (Heap UInt8) Bool :=
  if rankTop = A.nCol then do
    luInvmultInplace LUTop rankTop (some rpTop) none Y2
    pure true
  else
    solveBothParts A LUTop Y2 nTopRows rankTop rpTop cpTop

/-- Reorder the unknowns and compare them with those that there are. -/
def checkResult (X X2 : M256v) (nCol : ℕ) (cpTop : Array ℕ) : Prog (Heap UInt8) Bool := do
  let invCp ← permInvert nCol cpTop (Array.replicate nCol 0)
  MvGen.permuteRows X2 invCp
  MvMatrix.addInplace X X2
  MvMatrix.iszero X2

/-- Compute `Y = A X`, solve for `X` again and compare. -/
def stestLusplit (A X : M256v) (nTopRows : ℕ) : Prog (Heap UInt8) Bool := do
  let Y ← M256v.localView A.nRow dlen
  MvMatrix.mul A X Y
  let ATop ← A.getSubview 0 0 nTopRows A.nCol
  let LUTop ← M256v.localView nTopRows A.nCol
  MvMatrix.copy ATop LUTop
  let (rankTop, rpTop, cpTop) ← luDecompInplace LUTop
  let Y2 ← M256v.localView A.nRow dlen
  MvMatrix.copy Y Y2
  let X2 ← Y2.getSubview 0 0 A.nCol Y2.nCol
  let solved ← solveSplit A LUTop Y2 nTopRows rankTop rpTop cpTop
  let same ← if solved then checkResult X X2 A.nCol cpTop else pure false
  release
  release
  release
  pure same

/-! ## The loops -/

section Loops

variable {ABot Bv Yt Ar Yb Y : M256v} {h : Heap UInt8} {P B W E D T : Table GF256} {n m r k : ℕ}

/-- A row of a view apart is added. -/
theorem addRow_ends {i j : ℕ} (hE : Yt.Holds h E) (hB : Bv.Holds h B)
    (hdisj : Disjoint Yt.cells Bv.cells) (hcol : Bv.nCol = Yt.nCol) (hj : j < Bv.nRow)
    (hi : i < Yt.nRow) (v : GF256) :
    Ends (Bv.multaddRow j v.byte Yt i) h fun _ h' =>
      Yt.Holds h' (E.addRow i fun c => v * B j c) ∧ AgreeOff Yt.cells h h' := by
  have hends := HeapView.multaddRow_ends (M := Yt) hE hB (Or.inr hdisj) hcol hj hi v
  rwa [Table.multaddRowFrom_zero] at hends

/-- The views of the remaining matrix and of its right-hand side hold the parts of
one table with `k` columns before the line. -/
structure Augmented (Ar Yb : M256v) (k : ℕ) (h g : Heap UInt8) (D : Table GF256) : Prop where
  left : Ar.Holds g D
  right : Yb.Holds g fun i c => D i (k + c)
  agreeOff : AgreeOff (Ar.cells ∪ Yb.cells) h g

/-- Two tables side by side. -/
def augment (k : ℕ) (B W : Table GF256) : Table GF256 :=
  fun i c => if c < k then B i c else W i (c - k)

theorem augment_left {c : ℕ} (hc : c < k) (i : ℕ) : augment k B W i c = B i c := if_pos hc

theorem augment_right (i c : ℕ) : augment k B W i (k + c) = W i c := by
  simp [augment]

/-- Rows are added to both parts alike. -/
theorem Augmented.multaddRow_ends {g : Heap UInt8} {i j : ℕ} (hD : Augmented Ar Yb k h g D)
    (hk : Ar.nCol = k) (hB : Bv.Holds g B) (hW : Yt.Holds g W) (hAB : Disjoint Ar.cells Bv.cells)
    (hAY : Disjoint Ar.cells Yb.cells) (hAW : Disjoint Ar.cells Yt.cells)
    (hYW : Disjoint Yb.cells Yt.cells) (hcolB : Bv.nCol = Ar.nCol) (hcolW : Yt.nCol = Yb.nCol)
    (hjB : j < Bv.nRow) (hjW : j < Yt.nRow) (hiA : i < Ar.nRow) (hiY : i < Yb.nRow) (v : GF256) :
    Ends (do
      Bv.multaddRow j v.byte Ar i
      Yt.multaddRow j v.byte Yb i) g fun _ g' =>
        Augmented Ar Yb k h g' (D.addRow i fun c => v * augment k B W j c) := by
  apply (addRow_ends hD.left hB hAB hcolB hjB hiA v).bind
  rintro _ g₁ ⟨hleft, hagree₁⟩
  have hright := HeapView.holds_agreeOff (M := Yb) hD.right hagree₁ hAY
  apply (addRow_ends hright (HeapView.holds_agreeOff (M := Yt) hW hagree₁ hAW) hYW hcolW hjW
    hiY v).mono
  rintro _ g₂ ⟨hright', hagree₂⟩
  have hleft' := HeapView.holds_agreeOff (M := Ar) hleft hagree₂ hAY.symm
  constructor
  case left =>
    refine hleft'.congr fun a _ c hc => ?_
    simp only [Table.addRow, augment_left (hk ▸ hc)]
  case right =>
    refine hright'.congr fun a _ c _ => ?_
    simp only [Table.addRow, augment_right]
  case agreeOff =>
    exact (hD.agreeOff.trans (hagree₁.mono Set.subset_union_left)).trans
      (hagree₂.mono Set.subset_union_right)

/-- The unknowns of the top part are replaced in both parts. -/
theorem eliminateBottom_ends (hE : Augmented Ar Yb k h h E) (hk : Ar.nCol = k)
    (hP : ∀ g, AgreeOff (Ar.cells ∪ Yb.cells) h g → ∀ i < n, ∀ j < r,
      g.load (ABot.cell i j) = some (P i j).byte)
    (hB : Bv.Holds h B) (hW : Yt.Holds h W) (hBA : Disjoint Ar.cells Bv.cells)
    (hBY : Disjoint Yb.cells Bv.cells) (hAY : Disjoint Ar.cells Yb.cells)
    (hAW : Disjoint Ar.cells Yt.cells) (hYW : Disjoint Yb.cells Yt.cells)
    (hcolB : Bv.nCol = Ar.nCol) (hcolW : Yt.nCol = Yb.nCol) (hrB : r ≤ Bv.nRow)
    (hrW : r ≤ Yt.nRow) (hnA : n ≤ Ar.nRow) (hnY : n ≤ Yb.nRow) (hrow : n ≤ ABot.nRow)
    (hcol : r ≤ ABot.nCol) :
    Ends (eliminateBottom ABot Bv Yt Ar Yb n r) h fun _ g =>
      Augmented Ar Yb k h g fun i =>
        if i < n then fun c => E i c + ∑ j ∈ range r, P i j * augment k B W j c else E i := by
  apply rowsLoop_ends (R := fun g D => Augmented Ar Yb k h g D)
    (fun i c => E i c + ∑ j ∈ range r, P i j * augment k B W j c) hE
  intro i g D hi hold hD
  have hrowLoop : Ends (forRange 0 r fun j => do
      let v ← ABot.getEl i j
      Bv.multaddRow j v Ar i
      Yt.multaddRow j v Yb i) g fun _ g' =>
        Augmented Ar Yb k h g' (D.addRow i fun c => ∑ j ∈ Ico 0 r, P i j * augment k B W j c) := by
    apply sumUp_ends (R := fun g D => Augmented Ar Yb k h g D)
      (w := fun j c => P i j * augment k B W j c) ?_ hD
    intro j g₁ D₁ _ hj _ hD₁
    have hB₁ := HeapView.holds_agreeOff (M := Bv) hB hD₁.agreeOff (hBA.union_left hBY)
    have hW₁ := HeapView.holds_agreeOff (M := Yt) hW hD₁.agreeOff (hAW.union_left hYW)
    rw [ends_bind, ends_getEl]
    refine ⟨hi.trans_le hrow, (hj.trans_le hcol).le, _, hP g₁ hD₁.agreeOff i hi j hj, ?_⟩
    exact hD₁.multaddRow_ends hk hB₁ hW₁ hBA hAY hAW hYW hcolB hcolW (hj.trans_le hrB)
      (hj.trans_le hrW) (hi.trans_le hnA) (hi.trans_le hnY) (P i j)
  apply hrowLoop.mono
  intro _ g' hD'
  refine ⟨_, hD', ?_, fun a ha => Table.addRow_of_ne D _ ha⟩
  funext c
  rw [Table.addRow_self, hold i le_rfl, range_eq_Ico]

theorem backsubstitute_ends (hB : Bv.Holds h B) (hU : Yb.Holds h D) (hW : Yt.Holds h W)
    (hYB : Disjoint Yt.cells Bv.cells) (hYY : Disjoint Yt.cells Yb.cells)
    (hcol : Yb.nCol = Yt.nCol) (hrB : r ≤ Bv.nRow) (hkB : k ≤ Bv.nCol) (hkY : k ≤ Yb.nRow)
    (hrY : r ≤ Yt.nRow) :
    Ends (backsubstitute Bv Yb Yt r k) h fun _ g =>
      Yt.Holds g (fun i =>
        if i < r then fun c => W i c + ∑ j ∈ range k, B i j * D j c else W i) ∧
          AgreeOff Yt.cells h g := by
  apply rowsLoop_ends (R := fun g T => Yt.Holds g T ∧ AgreeOff Yt.cells h g)
    (fun i c => W i c + ∑ j ∈ range k, B i j * D j c) ⟨hW, AgreeOff.refl _ h⟩
  rintro i g T hi hold hT
  have hrowLoop : Ends (forRange 0 k fun j => do
      let v ← Bv.getEl i j
      Yb.multaddRow j v Yt i) g fun _ g' =>
        Yt.Holds g' (T.addRow i fun c => ∑ j ∈ Ico 0 k, B i j * D j c) ∧
          AgreeOff Yt.cells h g' := by
    apply sumUp_ends (R := fun g T => Yt.Holds g T ∧ AgreeOff Yt.cells h g)
      (w := fun j c => B i j * D j c) ?_ hT
    rintro j g₁ T₁ _ hj _ ⟨hT₁, hagree⟩
    have hB₁ := HeapView.holds_agreeOff (M := Bv) hB hagree hYB
    have hU₁ := HeapView.holds_agreeOff (M := Yb) hU hagree hYY
    rw [ends_bind, hB₁.ends_getEl (hi.trans_le hrB) (hj.trans_le hkB)]
    apply (addRow_ends hT₁ hU₁ hYY hcol (hj.trans_le hkY) (hi.trans_le hrY) (B i j)).mono
    rintro _ g₂ ⟨hT₂, hagree'⟩
    exact ⟨hT₂, hagree.trans hagree'⟩
  apply hrowLoop.mono
  rintro _ g' hT'
  refine ⟨_, hT', ?_, fun a ha => Table.addRow_of_ne T _ ha⟩
  funext c
  rw [Table.addRow_self, hold i le_rfl, range_eq_Ico]

/-- Rows move up inside a matrix, from a view of its last rows. -/
theorem copyUp_ends {l : ℕ} (hY : Y.Holds h T) (hYb : IsSubview Yb Y n 0 l Y.nCol) (hrn : r < n) :
    Ends (forRange 0 l fun i => Yb.copyRow i Y (r + i)) h fun _ g =>
      Y.Holds g (fun a => if r ≤ a ∧ a < r + l then T (n + (a - r)) else T a) ∧
        AgreeOff Y.cells h g := by
  have hrow := hYb.row_le
  refine forRange_ends (fun k g => Y.Holds g (fun a =>
    if r ≤ a ∧ a < r + k then T (n + (a - r)) else T a) ∧ AgreeOff Y.cells h g) (Nat.zero_le l)
    ?_ ⟨hY.congr fun a _ c _ => by rw [if_neg (by omega)], AgreeOff.refl _ h⟩
  rintro i g - hi ⟨hI, hagree⟩
  have hsource : RowSource Yb i Y (r + i) g fun a => T (n + a) := by
    intro c hc g₁ hagree₁
    have hcell : Yb.cell i c = Y.cell (n + i) c := by rw [hYb.cell_eq, Nat.zero_add]
    have hbehind : ¬ (r ≤ n + i ∧ n + i < r + i) := by omega
    have hsource := hI.source_self (by omega : n + i < Y.nRow) c hc g₁ hagree₁
    simp only [if_neg hbehind] at hsource
    rw [hcell, hsource]
  apply (M256v.copyRow_ends hI hYb.nCol_eq (hYb.nRow_eq ▸ hi) (by omega) hsource).mono
  rintro _ g' ⟨hI', hagree'⟩
  refine ⟨hI'.congr fun a _ c _ => ?_, hagree.trans (hagree'.mono (rowCells_subset (by omega)))⟩
  rcases eq_or_ne a (r + i) with rfl | hne
  · rw [Table.copyRow, if_pos rfl, if_pos (by omega), Nat.add_sub_cancel_left]
  · have hiff : (r ≤ a ∧ a < r + (i + 1)) ↔ (r ≤ a ∧ a < r + i) := by omega
    simp only [Table.copyRow, if_neg hne, hiff]

end Loops

/-! ## The two parts -/

section Parts

variable {A LU Y : M256v} {h g : Heap UInt8} {S V B W : Table GF256} {n r q : ℕ} {t : State GF256}
  {rp cp : Array ℕ}

/-- With full column rank the solution in place is the only one there is. -/
theorem luInvmultInplace_unique {M : M256v} (ht : Finished S M.nRow M.nCol M.nCol q t)
    (hM : M.Holds h t.mat) (hY : Y.Holds h V) (hdisj : Disjoint Y.cells M.cells)
    (hpos : 0 < Y.nRow) (hrow : M.nRow ≤ Y.nRow) (hrp : Lists rp M.nRow t.rowperm) :
    Ends (luInvmultInplace M (M.nCol : ℤ) (some rp) none Y) h fun _ h' => ∃ W, Y.Holds h' W ∧
      (∀ X c, (∀ i < M.nRow, times S M.nCol X i c = V i c) → ∀ j < M.nCol, W j c = X j c) ∧
        AgreeOff Y.cells h h' := by
  have hrank := ht.rank_le_rows
  have hsolve : solveRank M M.nCol = M.nCol := by
    rw [solveRank, if_neg (by omega), Int.toNat_natCast]
  have hlists : HeapView.ListsOpt (some rp) M.nRow t.rowperm := ⟨fun _ => ht.rowperm_lt, hrp.get_eq⟩
  have hrankrow : solveRank M M.nCol ≤ M.nRow := hsolve.le.trans hrank
  apply (HeapView.luInvmultInplace_ends hM hY hdisj hpos hrow (hrank.trans hrow) hrankrow
    hsolve.le hlists (HeapView.listsOpt_none _) (hsolve.symm ▸ ht.diag)).mono
  rintro _ h' ⟨Z, W, hZ, hW, hYW, hagree⟩
  rw [hsolve] at hZ hW
  simp only [Equiv.Perm.one_apply, ite_self] at hYW
  refine ⟨W, hYW, fun X c hX j hj => ?_, hagree⟩
  symm
  refine (ht.solution_iff (fun i hi => hZ.solve i hi c)
    (fun i hi => hW.solve i (Nat.zero_le i) hi c) fun k => X k c).mp (fun i hi => ?_) j hj
  have hin : i < M.nRow := hi.trans_le hrank
  exact (hX _ (ht.rowperm_lt.mpr hin)).trans (if_pos hin).symm

/-- The top part gives the matrix of the back substitution and what the pivot unknowns
are up to it. -/
theorem solveTop_ends (ht : Finished S n A.nCol r q t) (hLU : LU.Holds h t.mat)
    (hY : Y.Holds h V) (hLY : Disjoint LU.cells Y.cells) (hpos : 0 < n) (hrowLU : LU.nRow = n)
    (hcolLU : LU.nCol = A.nCol) (hrowY : n ≤ Y.nRow) (hcolY : Y.nCol = dlen)
    (hrp : Lists rp n t.rowperm) :
    Ends (solveTop LU Y n A.nCol r rp) h fun out h' => ∃ B W,
      IsSubview out.1 LU 0 r n (A.nCol - r) ∧ out.1.Holds h' B ∧ Substitutes t.mat r A.nCol B ∧
        IsSubview out.2 Y 0 0 n dlen ∧ out.2.Holds h' W ∧
          (∀ X c, (∀ i < n, times S A.nCol X i c = V i c) → ∀ j < r,
            leading r (A.nCol - r) B (fun k => X (t.colperm k)) j c = W j c) ∧
              AgreeOff (out.1.cells ∪ out.2.cells) h h' := by
  have hrn := ht.rank_le_rows
  have hrm := ht.rank_le_cols
  unfold solveTop
  apply (getSubview_ends (by omega) (by omega) (by omega)).bind
  rintro Lt _ ⟨hLt, rfl⟩
  apply (getSubview_ends (by omega) (by omega) (by omega)).bind
  rintro Bt _ ⟨hBt, rfl⟩
  have hLB := hLt.disjoint hBt (by omega)
  have hLtmat := hLt.holds_top hLU
  have hLtrow : MvGen.nRow Lt = n := hLt.nRow_eq
  have hLtcol : MvGen.nCol Lt = r := hLt.nCol_eq
  have hBtrow : MvGen.nRow Bt = n := hBt.nRow_eq
  have hLtrank : r ≤ MvGen.nRow Lt := hLtrow ▸ hrn
  apply (HeapView.uInvmultInplaceP_ends hLtmat (hBt.holds hLU) hLB.symm (Places.none_id _) hLtrank
    hLtcol.ge (fun i hi => hBtrow.symm ▸ (hLtcol ▸ hi : i < r).trans_le hrn)
    (fun i _ j _ heq => heq) ht.diag).bind
  rintro _ h₁ ⟨B, hB, hBtB, hagreeB⟩
  apply (getSubview_ends (by omega) (by omega) (by omega)).bind
  rintro Yt _ ⟨hYt, rfl⟩
  have hYB := hLY.symm.mono hYt.cells_subset hBt.cells_subset
  have hYL := hLY.symm.mono hYt.cells_subset hLt.cells_subset
  have hYtrow : MvGen.nRow Yt = n := hYt.nRow_eq
  have hsolve : solveRank Lt r = r := by
    rw [solveRank, if_neg (by omega), Int.toNat_natCast]
  have hLtmat' := hLtmat.agreeOff hagreeB hLB.symm
  have hYtV := (hYt.holds_top hY).agreeOff hagreeB hYB.symm
  have hlists : HeapView.ListsOpt (some rp) (MvGen.nRow Lt) t.rowperm :=
    ⟨fun k => hLtrow.symm ▸ ht.rowperm_lt, hLtrow.symm ▸ hrp.get_eq⟩
  apply (HeapView.luInvmultInplace_ends hLtmat' hYtV hYL (hYtrow.symm ▸ hpos)
    (by rw [hLtrow, hYtrow]) (by rw [hLtcol, hYtrow]; exact hrn) (hsolve.le.trans hLtrank)
    (by rw [hsolve, hLtcol]) hlists (HeapView.listsOpt_none _) (hsolve.symm ▸ ht.diag)).bind
  rintro _ h₂ ⟨Z, W, hZ, hW, hYtW, hagreeW⟩
  rw [hsolve] at hZ hW
  rw [hLtcol] at hW
  simp only [Equiv.Perm.one_apply, ite_self] at hYtW
  have hBtB' := HeapView.holds_agreeOff (M := Bt) hBtB hagreeW hYB
  have hsub : Substitutes t.mat r A.nCol B := by
    intro i hi e _
    have hback := hB.solve i (Nat.zero_le i) hi e
    rw [hLtcol] at hback
    simpa only [Table.block, id_eq, Nat.zero_add] using hback
  refine ends_pure.mpr ⟨B, W, hBt, hBtB', hsub, hYt, hYtW, fun X c hX => ?_, ?_⟩
  · refine ht.leading_eq hsub hX (fun i hi => ?_) fun i hi => hW.solve i (Nat.zero_le i) hi c
    exact (hZ.solve i hi c).trans (if_pos (hLtrow.symm ▸ hi.trans_le hrn))
  · exact (hagreeB.mono Set.subset_union_left).trans (hagreeW.mono Set.subset_union_right)

/-- What is left of the bottom part when the unknowns of the top part are replaced. -/
theorem reduceBottom_ends {Bt Yt : M256v} (ht : Finished S n A.nCol r q t) (hA : A.Holds h S)
    (hB : Bt.Holds h B) (hW : Yt.Holds h W) (hBt : IsSubview Bt LU 0 r n (A.nCol - r))
    (hYt : IsSubview Yt Y 0 0 n dlen)
    (hV : ∀ Yb, IsSubview Yb Y n 0 (A.nRow - n) dlen → Yb.Holds h (V.block n 0))
    (hAL : Disjoint A.cells LU.cells) (hAY : Disjoint A.cells Y.cells)
    (hLY : Disjoint LU.cells Y.cells) (hlt : n < A.nRow) (hrowY : Y.nRow = A.nRow)
    (hcolY : Y.nCol = dlen) (hcp : Lists cp A.nCol t.colperm) :
    Ends (reduceBottom A Y Bt Yt n r cp) h fun out h' =>
      out.1.nRow = A.nRow - n ∧ out.1.nCol = A.nCol - r ∧ out.1.cells ⊆ A.cells ∧
        IsSubview out.2 Y n 0 (A.nRow - n) dlen ∧
          out.1.Holds h' (remainder S n r t.colperm B) ∧
            out.2.Holds h' (fun i c =>
              V (n + i) c - ∑ j ∈ range r, S (n + i) (t.colperm j) * W j c) ∧
                AgreeOff (A.cells ∪ out.2.cells) h h' := by
  have hrn := ht.rank_le_rows
  have hrm := ht.rank_le_cols
  unfold reduceBottom
  apply (getSubview_ends hlt (by omega) (by omega)).bind
  rintro Ab h ⟨hAb, rfl⟩
  have hAbrow := hAb.nRow_eq
  have hAbcol := hAb.nCol_eq
  have hAbS := hAb.holds hA
  apply (HeapView.permuteCols_ends hAbS (fun k => by
    show t.colperm k < Ab.nCol ↔ k < Ab.nCol
    rw [hAbcol]
    exact ht.colperm_lt) (hAbcol.symm ▸ hcp.get_eq)).bind
  rintro _ h₁ ⟨hAbP, hagreeP⟩
  apply (getSubview_ends (by omega) (by omega) (by omega)).bind
  rintro Ar h₁ ⟨hAr, rfl⟩
  apply (getSubview_ends (by omega) (by omega) (by omega)).bind
  rintro Yb h₁ ⟨hYb, rfl⟩
  have hArA : Ar.cells ⊆ A.cells := hAr.cells_subset.trans hAb.cells_subset
  have hBtLU := hBt.cells_subset
  have hYtY := hYt.cells_subset
  have hYbY := hYb.cells_subset
  have hYtYb := hYt.disjoint hYb (by omega)
  have hArBt := hAL.mono hArA hBtLU
  have hYbBt := hLY.symm.mono hYbY hBtLU
  have hArYb := hAY.mono hArA hYbY
  have hArYt := hAY.mono hArA hYtY
  have hB₁ := hB.agreeOff hagreeP (hAL.mono hAb.cells_subset hBtLU)
  have hW₁ := hW.agreeOff hagreeP (hAY.mono hAb.cells_subset hYtY)
  have hV₁ := (hV Yb hYb).agreeOff hagreeP (hAY.mono hAb.cells_subset hYbY)
  -- The columns of the pivot unknowns are only read.
  have hleft : ∀ g, AgreeOff (Ar.cells ∪ Yb.cells) h₁ g → ∀ i < A.nRow - n, ∀ j < r,
      g.load (Ab.cell i j) = some (S (n + i) (t.colperm j)).byte := by
    intro g hg i hi j hj
    have hjcol : j < Ab.nCol := by omega
    have hout : Ab.cell i j ∉ Ar.cells ∪ Yb.cells := by
      rintro (⟨a, ha, e, he, heq⟩ | hmem)
      · rw [hAr.nCol_eq] at he
        rw [hAr.cell_eq] at heq
        have := (cell_inj (by omega) (by omega)).mp heq
        omega
      · have hcell := hAb.cells_subset (cell_mem_cells (hAbrow.symm ▸ hi) hjcol)
        exact (Set.disjoint_left.mp hAY hcell) (hYbY hmem)
    rw [hg _ hout, hAbP.load (hAbrow.symm ▸ hi) hjcol]
    simp only [Table.block, Nat.zero_add]
  have hstart : Augmented Ar Yb (A.nCol - r) h₁ h₁ (augment (A.nCol - r)
      (fun i e => S (n + i) (t.colperm (r + e))) fun i => V (n + i)) := by
    constructor
    case left =>
      refine (hAr.holds hAbP).congr fun i _ e he => ?_
      rw [augment_left (hAr.nCol_eq ▸ he)]
      simp only [Table.block, Nat.zero_add]
    case right =>
      refine hV₁.congr fun i _ c _ => ?_
      rw [augment_right]
      simp only [Table.block, Nat.zero_add]
    case agreeOff => exact AgreeOff.refl _ h₁
  apply (eliminateBottom_ends hstart hAr.nCol_eq hleft hB₁ hW₁ hArBt hYbBt hArYb hArYt hYtYb.symm
    (hBt.nCol_eq.trans hAr.nCol_eq.symm) (hYt.nCol_eq.trans hYb.nCol_eq.symm)
    (hBt.nRow_eq.symm ▸ hrn) (hYt.nRow_eq.symm ▸ hrn) hAr.nRow_eq.ge hYb.nRow_eq.ge hAbrow.ge
    (hAbcol.symm ▸ hrm)).bind
  rintro _ h₂ hdone
  refine ends_pure.mpr ⟨hAr.nRow_eq, hAr.nCol_eq, hArA, hYb, hdone.left.congr fun i hi e he => ?_,
    hdone.right.congr fun i hi c _ => ?_, ?_⟩
  · rw [hAr.nRow_eq] at hi
    rw [hAr.nCol_eq] at he
    simp only [if_pos hi, augment_left he, remainder, CharTwo.sub_eq_add]
  · rw [hYb.nRow_eq] at hi
    simp only [if_pos hi, augment_right, CharTwo.sub_eq_add]
  · exact (hagreeP.mono (hAb.cells_subset.trans Set.subset_union_left)).trans
      (hdone.agreeOff.mono (Set.union_subset_union_left _ hArA))

/-- The two parts of the solution in one matrix. -/
theorem holds_join {Yt Yb : M256v} {k l : ℕ} {T U : Table GF256} (hYt : IsSubview Yt Y 0 0 n k)
    (hYb : IsSubview Yb Y n 0 l k) (hrow : Y.nRow = n + l) (hcol : Y.nCol = k)
    (hT : Yt.Holds h T) (hU : Yb.Holds h U) :
    Y.Holds h fun i => if i < n then T i else U (i - n) := by
  intro i hi c hc
  rcases lt_or_ge i n with hin | hin
  · have hcell : Y.cell i c = Yt.cell i c := by rw [hYt.cell_eq, Nat.zero_add, Nat.zero_add]
    rw [hcell, hT.load (hYt.nRow_eq.symm ▸ hin) (hYt.nCol_eq.symm ▸ hcol ▸ hc)]
    simp only [if_pos hin]
  · obtain ⟨e, rfl⟩ := Nat.exists_eq_add_of_le hin
    have hcell : Y.cell (n + e) c = Yb.cell e c := by rw [hYb.cell_eq, Nat.zero_add]
    rw [hcell, hU.load (by rw [hYb.nRow_eq]; omega) (hYb.nCol_eq.symm ▸ hcol ▸ hc)]
    simp only [if_neg hin.not_gt, Nat.add_sub_cancel_left]

/-- The solution of the system from those of the two parts. -/
theorem joinParts_ends {Bt Yt Yb : M256v} {U : Table GF256} {k l m : ℕ} (hB : Bt.Holds h B)
    (hW : Yt.Holds h W) (hU : Yb.Holds h U) (hYt : IsSubview Yt Y 0 0 n m)
    (hYb : IsSubview Yb Y n 0 l m) (hBY : Disjoint Y.cells Bt.cells) (hrow : Y.nRow = n + l)
    (hcol : Y.nCol = m) (hrB : r ≤ Bt.nRow) (hkB : k ≤ Bt.nCol) (hkl : k ≤ l) (hrn : r ≤ n) :
    Ends (joinParts Bt Yt Yb Y n r k) h fun _ h' => ∃ D, Y.Holds h' D ∧
      (∀ j < r, ∀ c, D j c = W j c + ∑ e ∈ range k, B j e * U e c) ∧
        (∀ e < l, D (r + e) = U e) ∧ AgreeOff Y.cells h h' := by
  have hYY := hYt.disjoint hYb (by omega)
  unfold joinParts
  apply (backsubstitute_ends hB hU hW (hBY.mono_left hYt.cells_subset) hYY
    (hYb.nCol_eq.trans hYt.nCol_eq.symm) hrB hkB (hYb.nRow_eq.symm ▸ hkl)
    (hYt.nRow_eq.symm ▸ hrn)).bind
  rintro _ g ⟨hYtD, hagree⟩
  have hYD := holds_join hYt hYb hrow hcol hYtD (hU.agreeOff hagree hYY)
  have hagree' := hagree.mono hYt.cells_subset
  have htop : ∀ j < r, ∀ c, (if j < n then
      if j < r then fun c => W j c + ∑ e ∈ range k, B j e * U e c else W j
      else U (j - n)) c = W j c + ∑ e ∈ range k, B j e * U e c := by
    intro j hj c
    rw [if_pos (hj.trans_le hrn), if_pos hj]
  rcases hrn.lt_or_eq with hlt | rfl
  · have hYb' : IsSubview Yb Y n 0 Yb.nRow Y.nCol := by
      rw [hYb.nRow_eq, hcol]
      exact hYb
    rw [if_pos hlt]
    apply (copyUp_ends hYD hYb' hlt).mono
    rintro _ g' ⟨hD, hagree₂⟩
    refine ⟨_, hD, fun j hj c => ?_, fun e he => ?_, hagree'.trans hagree₂⟩
    · rw [if_neg (by omega)]
      exact htop j hj c
    · rw [if_pos (by rw [hYb.nRow_eq]; omega), Nat.add_sub_cancel_left, if_neg (by omega),
        Nat.add_sub_cancel_left]
  · rw [if_neg (lt_irrefl r), ends_pure]
    refine ⟨_, hYD, htop, fun e _ => ?_, hagree'⟩
    simp

/-- Both parts together determine the unknowns exactly if the matrix has full column
rank; they are left in the order of the pivots. -/
theorem solveBothParts_ends {X : Table GF256} (ht : Finished S n A.nCol r q t) (hA : A.Holds h S)
    (hLU : LU.Holds h t.mat) (hY : Y.Holds h V)
    (hV : ∀ i < A.nRow, ∀ c < dlen, V i c = times S A.nCol X i c)
    (hAL : Disjoint A.cells LU.cells) (hAY : Disjoint A.cells Y.cells)
    (hLY : Disjoint LU.cells Y.cells) (hpos : 0 < n) (hlt : n < A.nRow)
    (hrowLU : LU.nRow = n) (hcolLU : LU.nCol = A.nCol) (hrowY : Y.nRow = A.nRow)
    (hcolY : Y.nCol = dlen) (hrp : Lists rp n t.rowperm) (hcp : Lists cp A.nCol t.colperm) :
    Ends (solveBothParts A LU Y n r rp cp) h fun solved h' =>
      (solved = true ↔ (S.toMatrix A.nRow A.nCol).rank = A.nCol) ∧
        (solved = true → ∃ D, Y.Holds h' D ∧
          ∀ j < A.nCol, ∀ c < dlen, D j c = X (t.colperm j) c) ∧
            AgreeOff (A.cells ∪ LU.cells ∪ Y.cells) h h' := by
  have hrn := ht.rank_le_rows
  have hrm := ht.rank_le_cols
  have hVtop : ∀ c < dlen, ∀ i < n, times S A.nCol X i c = V i c := fun c hc i hi =>
    (hV i (hi.trans hlt) c hc).symm
  unfold solveBothParts
  apply (solveTop_ends ht hLU hY hLY hpos hrowLU hcolLU (hrowY ▸ hlt.le) hcolY hrp).bind
  rintro ⟨Bt, Yt⟩ h₁ ⟨B, W, hBt, hBtB, hsub, hYt, hYtW, hlead, hagree₁⟩
  have hLY₁ : Bt.cells ∪ Yt.cells ⊆ LU.cells ∪ Y.cells :=
    Set.union_subset_union hBt.cells_subset hYt.cells_subset
  have hA₁ := hA.agreeOff hagree₁ ((hAL.symm.mono_left hBt.cells_subset).union_left
    (hAY.symm.mono_left hYt.cells_subset))
  apply (reduceBottom_ends ht hA₁ hBtB hYtW hBt hYt (V := V) (fun Yb hYb =>
    (hYb.holds hY).agreeOff hagree₁ ((hLY.mono hBt.cells_subset hYb.cells_subset).union_left
      (hYt.disjoint hYb (by omega)))) hAL hAY hLY hlt hrowY hcolY hcp).bind
  rintro ⟨Ar, Yb⟩ h₂ ⟨hArrow, hArcol, hArA, hYb, hArS, hYbV, hagree₂⟩
  have hYt₂ := hYtW.agreeOff hagree₂ ((hAY.mono_right hYt.cells_subset).union_left
    (hYt.disjoint hYb (by omega)).symm)
  have hBt₂ := hBtB.agreeOff hagree₂ ((hAL.mono_right hBt.cells_subset).union_left
    (hLY.symm.mono hYb.cells_subset hBt.cells_subset))
  have hwhole₂ : AgreeOff (A.cells ∪ LU.cells ∪ Y.cells) h h₂ := by
    apply (hagree₁.mono _).trans (hagree₂.mono _)
    · exact hLY₁.trans (Set.union_subset (Set.subset_union_right.trans Set.subset_union_left)
        Set.subset_union_right)
    · exact Set.union_subset (Set.subset_union_left.trans Set.subset_union_left)
        (hYb.cells_subset.trans Set.subset_union_right)
  apply (luDecompInplace_run hArS).bind
  rintro ⟨rankBot, rpBot, cpBot⟩ h₃ ⟨t₂, hrun, hrpBot, -, hArt, hagree₃⟩
  obtain ⟨q₂, ht₂⟩ := hrun.finished
  rw [hArrow, hArcol] at ht₂
  have hfull := ht.remainder_rank_iff hsub hlt.le
  rw [ht₂.rank_eq] at hfull
  dsimp only
  by_cases hbot : rankBot = A.nCol - r
  · subst hbot
    rw [if_neg (not_not.mpr rfl)]
    have hArt' : Finished (remainder S n r t.colperm B) Ar.nRow Ar.nCol Ar.nCol q₂ t₂ := by
      rw [hArrow, hArcol]
      exact ht₂
    have hYb₃ := hYbV.agreeOff hagree₃ ((hAY.mono hArA hYb.cells_subset))
    have hsolve := luInvmultInplace_unique hArt' hArt hYb₃ (hAY.symm.mono hYb.cells_subset hArA)
      (hYb.nRow_eq.symm ▸ Nat.sub_pos_of_lt hlt) (hArrow.trans hYb.nRow_eq.symm).le hrpBot
    rw [hArcol] at hsolve
    apply hsolve.bind
    rintro _ h₄ ⟨U, hYbU, hU, hagree₄⟩
    have hYt₄ := (hYt₂.agreeOff hagree₃ (hAY.mono hArA hYt.cells_subset)).agreeOff hagree₄
      (hYt.disjoint hYb (by omega)).symm
    have hBt₄ := (hBt₂.agreeOff hagree₃ (hAL.mono hArA hBt.cells_subset)).agreeOff hagree₄
      (hLY.symm.mono hYb.cells_subset hBt.cells_subset)
    have hUX : ∀ e < A.nCol - r, ∀ c < dlen, U e c = X (t.colperm (r + e)) c := by
      intro e he c hc
      refine hU (fun e => X (t.colperm (r + e))) c (fun i hi => ?_) e he
      have hrow := hi.trans_eq hArrow
      have hin : n + i < A.nRow := by omega
      exact ht.remainder_solves (hV (n + i) hin c hc).symm (hlead X c (hVtop c hc))
    apply (joinParts_ends hBt₄ hYt₄ hYbU hYt hYb (hLY.symm.mono_right hBt.cells_subset)
      (by omega) hcolY (hBt.nRow_eq.symm ▸ hrn) hBt.nCol_eq.ge
      (ht₂.rank_le_rows) hrn).bind
    rintro _ h₅ ⟨D, hD, hfirst, hsecond, hagree₅⟩
    refine ends_pure.mpr ⟨⟨fun _ => hfull.mp rfl, fun _ => rfl⟩, fun _ => ⟨D, hD, ?_⟩, ?_⟩
    · intro j hj c hc
      rcases lt_or_ge j r with hjr | hjr
      · rw [hfirst j hjr, ← CharTwo.sub_eq_add]
        exact (eq_sub_of_leading (hlead X c (hVtop c hc) j hjr) fun e he => hUX e he c hc).symm
      · obtain ⟨e, rfl⟩ := Nat.exists_eq_add_of_le hjr
        have he : e < A.nCol - r := by omega
        rw [hsecond e (he.trans_le ht₂.rank_le_rows), hUX e he c hc]
    · have hA : A.cells ⊆ A.cells ∪ LU.cells ∪ Y.cells :=
        Set.subset_union_left.trans Set.subset_union_left
      exact ((hwhole₂.trans (hagree₃.mono (hArA.trans hA))).trans
        (hagree₄.mono (hYb.cells_subset.trans Set.subset_union_right))).trans
          (hagree₅.mono Set.subset_union_right)
  · rw [if_pos hbot, ends_pure]
    refine ⟨⟨fun htrue => absurd htrue Bool.false_ne_true, fun hrank => ?_⟩,
      fun htrue => absurd htrue Bool.false_ne_true, hwhole₂.trans (hagree₃.mono ?_)⟩
    · exact absurd (hfull.mpr hrank) hbot
    · exact hArA.trans (Set.subset_union_left.trans Set.subset_union_left)

/-- The same if the top part determines the unknowns. -/
theorem solveSplit_ends {X : Table GF256} (ht : Finished S n A.nCol r q t) (hA : A.Holds h S)
    (hLU : LU.Holds h t.mat) (hY : Y.Holds h V)
    (hV : ∀ i < A.nRow, ∀ c < dlen, V i c = times S A.nCol X i c)
    (hAL : Disjoint A.cells LU.cells) (hAY : Disjoint A.cells Y.cells)
    (hLY : Disjoint LU.cells Y.cells) (hpos : 0 < n) (hle : n ≤ A.nRow)
    (hall : n = A.nRow → (S.toMatrix A.nRow A.nCol).rank = A.nCol) (hrowLU : LU.nRow = n)
    (hcolLU : LU.nCol = A.nCol) (hrowY : Y.nRow = A.nRow) (hcolY : Y.nCol = dlen)
    (hrp : Lists rp n t.rowperm) (hcp : Lists cp A.nCol t.colperm) :
    Ends (solveSplit A LU Y n r rp cp) h fun solved h' =>
      (solved = true ↔ (S.toMatrix A.nRow A.nCol).rank = A.nCol) ∧
        (solved = true → ∃ D, Y.Holds h' D ∧
          ∀ j < A.nCol, ∀ c < dlen, D j c = X (t.colperm j) c) ∧
            AgreeOff (A.cells ∪ LU.cells ∪ Y.cells) h h' := by
  unfold solveSplit
  split_ifs with hr
  · subst hr
    have hrank : (S.toMatrix A.nRow A.nCol).rank = A.nCol :=
      Table.rank_eq_of_rows (fun i hi => ⟨i, hi.trans_le hle, fun _ => rfl⟩) ht.rank_eq
    have ht' : Finished S LU.nRow LU.nCol LU.nCol q t := by
      rw [hrowLU, hcolLU]
      exact ht
    rw [← hcolLU]
    apply (luInvmultInplace_unique ht' hLU hY hLY.symm (hrowY ▸ hpos.trans_le hle)
      (hrowLU.trans_le (hle.trans_eq hrowY.symm)) (hrowLU.symm ▸ hrp)).bind
    rintro _ h' ⟨W, hW, hunique, hagree⟩
    refine ends_pure.mpr ⟨⟨fun _ => hcolLU ▸ hrank, fun _ => rfl⟩, fun _ => ⟨W, hW, ?_⟩,
      hagree.mono Set.subset_union_right⟩
    intro j hj c hc
    rw [ht.colperm_eq_self]
    refine hunique X c (fun i hi => ?_) j hj
    rw [hcolLU, hV i ((hrowLU ▸ hi).trans_le hle) c hc]
  · have hlt : n < A.nRow := by
      rcases hle.lt_or_eq with hlt | rfl
      · exact hlt
      · exact absurd (ht.rank_eq.symm.trans (hall rfl)) hr
    exact solveBothParts_ends ht hA hLU hY hV hAL hAY hLY hpos hlt hrowLU hcolLU hrowY hcolY hrp
      hcp

/-- The unknowns go back to their places, where they are compared. -/
theorem checkResult_ends {X X₂ : M256v} {T D : Table GF256} {m : ℕ} {τ : Equiv.Perm ℕ}
    (hX : X.Holds h T) (hX₂ : X₂.Holds h D) (hdisj : Disjoint X₂.cells X.cells)
    (hrow : X.nRow = m) (hrow₂ : X₂.nRow = m) (hcol : X.nCol = X₂.nCol) (hpos : 0 < X₂.nCol)
    (hcp : Lists cp m τ) (hτ : ∀ k, τ k < m ↔ k < m)
    (hD : ∀ j < m, ∀ c < X₂.nCol, D j c = T (τ j) c) :
    Ends (checkResult X X₂ m cp) h fun same _ => same = true := by
  have hsymm : ∀ k, τ.symm k < m ↔ k < m := fun k => by rw [← hτ, τ.apply_symm_apply]
  unfold checkResult
  apply (permInvert_ends hcp hτ (Array.size_replicate)).bind
  rintro inv _ ⟨rfl, hinv⟩
  apply (HeapView.permuteRows_ends (M := X₂) (π := τ.symm) hX₂ (fun k => by
    show τ.symm k < X₂.nRow ↔ k < X₂.nRow
    rw [hrow₂]
    exact hsymm k) (fun k hk => (hcp.symm hτ hinv).get_eq k (hrow₂ ▸ hk))).bind
  rintro _ h₁ ⟨hX₂', hagree⟩
  apply (HeapView.addInplace_ends (hX.agreeOff hagree hdisj) hX₂' hdisj (hrow.trans hrow₂.symm)
    hcol).bind
  rintro _ h₂ ⟨hsum, -⟩
  apply (HeapView.iszero_ends hsum hpos).mono
  rintro same _ ⟨hiff, -⟩
  refine hiff.mpr fun j hj c hc => ?_
  have hjm : j < m := hrow₂ ▸ hj
  rw [hD _ ((hsymm j).mpr hjm) c hc, τ.apply_symm_apply, CharTwo.add_self_eq_zero]

end Parts

/-! ## Both ways to solve -/

section Test

variable {A X : M256v} {h : Heap UInt8} {S T : Table GF256} {n : ℕ}

/-- Matrices that are there before a local one keep what they hold while it is filled,
and are apart from it. -/
def Fresh (V : M256v) (h g : Heap UInt8) : Prop :=
  ∀ {M : M256v} {B : Table GF256}, M.Holds h B → M.Holds g B ∧ Disjoint V.cells M.cells

/-- A local matrix is reserved and filled. -/
theorem localView_bind {β : Type} {p : M256v → Prog (Heap UInt8) Unit}
    {f : M256v → Prog (Heap UInt8) β} {Q : β → Heap UInt8 → Prop} {n m : ℕ} (B : Table GF256)
    (hp : ∀ V g R, V.nRow = n → V.nCol = m → Fresh V h g → V.Holds g R →
      Ends (p V) g fun _ g' => V.Holds g' B ∧ AgreeOff V.cells g g')
    (hf : ∀ V g, V.nRow = n → V.nCol = m → Fresh V h g → V.Holds g B → Ends (f V) g Q) :
    Ends (M256v.localView n m >>= fun V => p V >>= fun _ => f V) h Q := by
  apply (HeapView.localView_ends (V := M256v) trivial h).bind
  rintro V _ ⟨hrow, hcol, hcells, ⟨R, hR⟩, block, rfl⟩
  have hfresh : Fresh V h (h.withBlock block) := fun {M} _ hM =>
    ⟨HeapView.holds_withBlock (M := M) hM block, HeapView.disjoint_local (M := M) hM hcells⟩
  apply (hp V _ R hrow hcol hfresh hR).bind
  rintro _ g' ⟨hB, hagree⟩
  refine hf V g' hrow hcol (fun hM => ?_) hB
  obtain ⟨hholds, hdisj⟩ := hfresh hM
  exact ⟨hholds.agreeOff hagree hdisj, hdisj⟩

/-- The test passes for every matrix of full column rank, however its rows are split
in two, and it fails for every other one.  There are no fewer rows than columns, at least
one row is on top, and `X` has four columns; that all rows are on top is only allowed for
full rank, where the code asserts it. -/
theorem stestLusplit_iff (hA : A.Holds h S) (hX : X.Holds h T)
    (hdisj : Disjoint X.cells A.cells) (hdim : A.nCol = X.nRow) (hcol : X.nCol = dlen)
    (hcols : A.nCol ≤ A.nRow) (hpos : 0 < n) (hle : n ≤ A.nRow)
    (hall : n = A.nRow → (S.toMatrix A.nRow A.nCol).rank = A.nCol) :
    Ends (stestLusplit A X n) h fun same _ =>
      same = true ↔ (S.toMatrix A.nRow A.nCol).rank = A.nCol := by
  unfold stestLusplit
  refine localView_bind (times S A.nCol T) (fun Y g R hrow hcolY hfresh hR => ?_)
    fun Y h₁ hYrow hYcol hfresh₁ hY₁ => ?_
  · obtain ⟨hA', hYA⟩ := hfresh hA
    obtain ⟨hX', hYX⟩ := hfresh hX
    exact HeapView.mul_ends hA' hX' hR hYA hYX hdim hrow.symm (hcol.trans hcolY.symm)
  obtain ⟨hA₁, hYA⟩ := hfresh₁ hA
  obtain ⟨hX₁, hYX⟩ := hfresh₁ hX
  apply (getSubview_ends (hpos.trans_le hle) (by omega) (by omega)).bind
  rintro At h₁ ⟨hAt, rfl⟩
  refine localView_bind S (fun L g R hrow hcolL hfresh hR => ?_)
    fun LU h₂ hLUrow hLUcol hfresh₂ hLU₂ => ?_
  · obtain ⟨hA', hLA⟩ := hfresh hA₁
    exact HeapView.copy_ends (hAt.holds_top hA') hR (hLA.mono_right hAt.cells_subset)
      (hAt.nRow_eq.trans hrow.symm) (hAt.nCol_eq.trans hcolL.symm)
  obtain ⟨hA₂, hLA⟩ := hfresh₂ hA₁
  obtain ⟨hX₂, hLX⟩ := hfresh₂ hX₁
  obtain ⟨hY₂, hLY⟩ := hfresh₂ hY₁
  apply (luDecompInplace_run hLU₂).bind
  rintro ⟨r, rp, cp⟩ h₃ ⟨t, hrun, hrp, hcp, hLU₃, hagree₃⟩
  obtain ⟨q, ht⟩ := hrun.finished
  have hA₃ := hA₂.agreeOff hagree₃ hLA
  have hX₃ := hX₂.agreeOff hagree₃ hLX
  have hY₃ := hY₂.agreeOff hagree₃ hLY
  refine localView_bind (times S A.nCol T) (fun Z g R hrow hcolZ hfresh hR => ?_)
    fun Y₂ h₄ hrow₂ hcol₂ hfresh₄ hY₄ => ?_
  · obtain ⟨hY', hZY⟩ := hfresh hY₃
    exact HeapView.copy_ends hY' hR hZY (hYrow.trans hrow.symm) (hYcol.trans hcolZ.symm)
  obtain ⟨hA₄, hYA₄⟩ := hfresh₄ hA₃
  obtain ⟨hX₄, hYX₄⟩ := hfresh₄ hX₃
  obtain ⟨hLU₄, hYL₄⟩ := hfresh₄ hLU₃
  apply (getSubview_ends (hrow₂.symm ▸ hpos.trans_le hle) (by omega) (by omega)).bind
  rintro X₂ h₄ ⟨hX₂, rfl⟩
  rw [hLUrow, hLUcol] at ht
  apply (solveSplit_ends ht hA₄ hLU₄ hY₄ (fun _ _ _ _ => rfl) hLA.symm hYA₄.symm hYL₄.symm hpos hle
    hall hLUrow hLUcol hrow₂ hcol₂ (hLUrow ▸ hrp) (hLUcol ▸ hcp)).bind
  rintro solved h₅ ⟨hiff, hsolution, hagree₅⟩
  cases solved with
  | false =>
      rw [if_neg Bool.false_ne_true]
      simpa only [ends_bind, ends_pure, ends_release] using hiff
  | true =>
      obtain ⟨D, hD, hDT⟩ := hsolution rfl
      have hX₅ := hX₄.agreeOff hagree₅ (((hdisj.symm).union_left hLX).union_left hYX₄)
      have hX₂col : X₂.nCol = dlen := hX₂.nCol_eq.trans hcol₂
      rw [if_pos rfl]
      apply (checkResult_ends hX₅ (hX₂.holds_top hD) (hYX₄.mono_left hX₂.cells_subset) hdim.symm
        hX₂.nRow_eq (hcol.trans hX₂col.symm) (hX₂col.symm ▸ Nat.succ_pos 3)
        (hLUcol ▸ hcp) (fun _ => ht.colperm_lt) fun j hj c hc => hDT j hj c (hX₂col ▸ hc)).bind
      rintro same h₆ rfl
      simpa only [ends_bind, ends_pure, ends_release] using hiff

/-- A matrix whose first two rows have rank one, and two rows of unknowns. -/
def splitHeap : Heap UInt8 := ⟨#[#[0, 0, 1, 0, 0, 1], #[1, 2, 3, 4, 5, 6, 7, 8]]⟩

theorem rank_splitHeap : ((rowMajor 2 #[0, 0, 1, 0, 0, 1]).toMatrix 3 2).rank = 2 := by
  refine (Table.rank_eq_iff _ 3 2).mpr fun x hx => ?_
  have hfirst := hx 1 (by decide)
  have hsecond := hx 2 (by decide)
  have hone : (⟨1⟩ : GF256) = 1 := rfl
  have hzero : (⟨0⟩ : GF256) = 0 := rfl
  simp [rowMajor, sum_range_succ, hone, hzero] at hfirst hsecond
  intro j hj
  interval_cases j
  · exact hfirst
  · exact hsecond

theorem stestLusplit_iff_small :
    Ends (stestLusplit (make 3 2 ⟨0, 0⟩) (make 2 4 ⟨1, 0⟩) 2) splitHeap fun same _ =>
      same = true := by
  have hA : (make 3 2 ⟨0, 0⟩).Holds splitHeap (rowMajor 2 #[0, 0, 1, 0, 0, 1]) :=
    holds_make rfl (by decide)
  have hX : (make 2 4 ⟨1, 0⟩).Holds splitHeap (rowMajor 4 #[1, 2, 3, 4, 5, 6, 7, 8]) :=
    holds_make rfl (by decide)
  apply (stestLusplit_iff hA hX (disjoint_cells_of_blk (by decide)) rfl rfl (by decide)
    (by decide) (by decide) fun h => absurd h (by decide)).mono
  exact fun same _ hiff => hiff.mpr rank_splitHeap

end Test

end TvRQ
