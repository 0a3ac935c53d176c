/-
# Row and column operations, byte by byte

What the operations with logarithm tables do to the bytes of the storage, for all
views: strided views, subviews of subviews, and two views that overlap.  They
write the cells of their target from the offset on and no other byte of any
block, and they never look up a power outside the table.

A pass of a loop reads its entry when the passes before it have written.  Between
two views that overlap an entry of the source row may then be new, so the result
is the one of the field for the entries that no earlier pass has written.
-/

import TvRQ.Algebra.M256vSpec

namespace TvRQ

open Imperative Heap

namespace M256v

variable {M M₁ : M256v} {h h₁ : Heap UInt8} {r r₁ c offs : ℕ}

/-! ## Bytes -/

/-- The byte of an element. -/
def byteAt (M : M256v) (h : Heap UInt8) (r c : ℕ) : UInt8 := (h.load (M.cell r c)).getD 0

/-- All elements of the view are in allocated memory. -/
def Stored (M : M256v) (h : Heap UInt8) : Prop :=
  ∀ r < M.nRow, ∀ c < M.nCol, (h.load (M.cell r c)).isSome

theorem Stored.load_eq (hM : M.Stored h) (hr : r < M.nRow) (hc : c < M.nCol) :
    h.load (M.cell r c) = some (M.contents h r c).byte := by
  obtain ⟨v, hv⟩ := Option.isSome_iff_exists.mp (hM r hr c hc)
  rw [contents, hv]
  rfl

theorem contents_congr (hload : h₁.load (M.cell r c) = h.load (M.cell r c)) :
    M.contents h₁ r c = M.contents h r c := by
  rw [contents, hload]
  rfl

/-- The source's product is the one of the field. -/
theorem contents_mul (M : M256v) (h : Heap UInt8) (alpha : UInt8) (r c : ℕ) :
    gf256Mul alpha (M.byteAt h r c) = .ok (⟨alpha⟩ * M.contents h r c).byte :=
  gf256Mul_eq_ok ⟨alpha⟩ (M.contents h r c)

/-- Clearing one element is multiplying it by zero. -/
theorem clearEl_wrote (hold : h.load (M.cell r c) = some (M.contents h r c).byte)
    (hr : r < M.nRow) (hc : c < M.nCol) :
    Ends (M.setEl r c 0) h fun _ =>
      h.Wrote (M.cell r c) ((⟨0⟩ : GF256) * M.contents h r c).byte := by
  have hzero : ((⟨0⟩ : GF256) * M.contents h r c).byte = 0 :=
    congrArg GF256.byte (zero_mul (M.contents h r c))
  rw [hzero]
  exact setEl_wrote hold hr hc 0

/-! ## The loops -/

theorem Stored.written {target : ℕ → Ptr} {value : ℕ → Heap UInt8 → UInt8} {lo hi : ℕ}
    (hM : M.Stored h) (hw : h.Written target value lo hi h₁) : M.Stored h₁ :=
  fun r hr c hc => hw.isSome _ (hM r hr c hc)

theorem multRow_written (hM : M.Stored h) (hr : r < M.nRow) (alpha : UInt8) :
    Ends (M.multRow r alpha) h fun _ h' =>
      h.Written (M.cell r) (fun c g => (⟨alpha⟩ * M.contents g r c).byte) 0 M.nCol h' := by
  have hnew : ∀ i k, 0 ≤ i → i < k → k < M.nCol → M.cell r i ≠ M.cell r k :=
    fun _ _ _ hik hk => cell_ne_of_lt hik hk
  unfold multRow
  split_ifs with ha
  · subst ha
    refine writeLoop_ends _ (Nat.zero_le _) hnew fun c h₁ _ hc hw => ?_
    exact clearEl_wrote ((hM.written hw).load_eq hr hc) hr hc
  · refine writeLoop_ends _ (Nat.zero_le _) hnew fun c h₁ _ hc hw => ?_
    rw [log_toNat ha]
    exact scaleEl_wrote ((hM.written hw).load_eq hr hc) hr hc ha

theorem multColFrom_written (hM : M.Stored h) (hc : c < M.nCol) (hoffs : offs ≤ M.nRow)
    (alpha : UInt8) :
    Ends (M.multColFrom c offs alpha) h fun _ h' => h.Written (fun j => M.cell j c)
      (fun j g => (⟨alpha⟩ * M.contents g j c).byte) offs M.nRow h' := by
  have hnew : ∀ i k, offs ≤ i → i < k → k < M.nRow → M.cell i c ≠ M.cell k c :=
    fun i k _ hik _ heq => hik.ne ((cell_inj hc hc).mp heq).1
  unfold multColFrom
  split_ifs with ha
  · refine writeLoop_ends _ hoffs hnew fun j h₁ _ hj hw => ?_
    exact scaleEl_wrote ((hM.written hw).load_eq hj hc) hj hc ha
  · obtain rfl : alpha = 0 := not_not.mp ha
    refine writeLoop_ends _ hoffs hnew fun j h₁ _ hj hw => ?_
    exact clearEl_wrote ((hM.written hw).load_eq hj hc) hj hc

/-- The pointers of the source walk along the two rows from the offset on. -/
theorem multaddRowFrom_written (hM₁ : M₁.Stored h) (hM : M.Stored h) (hcol : M₁.nCol = M.nCol)
    (hr₁ : r₁ < M₁.nRow) (hr : r < M.nRow) (hoffs : offs ≤ M.nCol) (alpha : UInt8) :
    Ends (multaddRowFrom M₁ r₁ offs alpha M r) h fun _ h' => h.Written (M.cell r)
      (fun c g => (M.contents g r c + ⟨alpha⟩ * M₁.contents g r₁ c).byte) offs M.nCol h' := by
  have hnew : ∀ i k, offs ≤ i → i < k → k < M.nCol → M.cell r i ≠ M.cell r k :=
    fun _ _ _ hik hk => cell_ne_of_lt hik hk
  by_cases hzero : alpha = 0
  · subst hzero
    have hsum : ∀ c, M.contents h r c + (⟨0⟩ : GF256) * M₁.contents h r₁ c = M.contents h r c :=
      fun c => by rw [show (⟨0⟩ : GF256) = 0 from rfl, zero_mul, add_zero]
    unfold multaddRowFrom
    rw [ends_bind, ends_ensure, if_pos rfl, ends_pure]
    refine ⟨hcol, AgreeOff.refl _ h, fun _ hp => hp, fun c _ hc _ => ?_⟩
    rw [hsum]
    exact hM.load_eq hr hc
  · obtain ⟨body, hiff, hbody⟩ := multaddRowFrom_loop (show (⟨alpha⟩ : GF256).byte ≠ 0 from hzero)
      hcol hr₁ hr hoffs h
    refine (hiff _).mpr (writeLoop_ends_sub _ hoffs hnew fun i h₁ hi hw => ?_)
    exact hbody i h₁ _ _ ((hM₁.written hw).load_eq hr₁ (hcol ▸ hi))
      ((hM.written hw).load_eq hr hi)

/-! ## What the views hold afterwards -/

/-- The element in column `c` of the source row is none of the target elements that
are written before it is read. -/
def ReadFirst (M₁ : M256v) (r₁ : ℕ) (M : M256v) (r offs c : ℕ) : Prop :=
  ∀ c', offs ≤ c' → c' < c → M.cell r c' ≠ M₁.cell r₁ c

/-- In one view this is so for any two rows, and for a row and itself. -/
theorem readFirst_self (r₁ r offs : ℕ) (hc : c < M.nCol) : ReadFirst M r₁ M r offs c :=
  fun _ _ hlt => cell_ne_of_lt hlt hc

/-- Between views without a common cell it is, too. -/
theorem readFirst_of_disjoint (hdisj : Disjoint M.cells M₁.cells) (hcol : M₁.nCol = M.nCol)
    (hr₁ : r₁ < M₁.nRow) (hr : r < M.nRow) (hc : c < M.nCol) : ReadFirst M₁ r₁ M r offs c := by
  intro c' _ hlt heq
  refine Set.disjoint_left.mp hdisj (cell_mem_cells hr (hlt.trans hc)) ?_
  rw [heq]
  exact cell_mem_cells hr₁ (hcol ▸ hc)

theorem IsSubview.stored {V : M256v} {ro co n m : ℕ} (hV : IsSubview V M ro co n m)
    (hM : M.Stored h) : V.Stored h := by
  intro r hr c hc
  obtain ⟨i, hi, j, hj, heq⟩ := hV.cells_subset (cell_mem_cells hr hc)
  rw [heq]
  exact hM i hi j hj

/-- The element at `r`, `c` of `M` has received `alpha` times the one at `r₁`, `c` of `M₁`. -/
def Added (M₁ : M256v) (r₁ : ℕ) (alpha : UInt8) (M : M256v) (r c : ℕ) (h h' : Heap UInt8) :
    Prop :=
  ∃ v, gf256Mul alpha (M₁.byteAt h r₁ c) = .ok v ∧
    h'.load (M.cell r c) = some (gf256Add (M.byteAt h r c) v)

/-- The element at `r`, `c` of `M` has been multiplied by `alpha`. -/
def Scaled (alpha : UInt8) (M : M256v) (r c : ℕ) (h h' : Heap UInt8) : Prop :=
  ∃ v, gf256Mul alpha (M.byteAt h r c) = .ok v ∧ h'.load (M.cell r c) = some v

theorem multaddRowFrom_added (hM₁ : M₁.Stored h) (hM : M.Stored h) (hcol : M₁.nCol = M.nCol)
    (hr₁ : r₁ < M₁.nRow) (hr : r < M.nRow) (hoffs : offs ≤ M.nCol) (alpha : UInt8) :
    Ends (multaddRowFrom M₁ r₁ offs alpha M r) h fun _ h' =>
      AgreeOff (targets (M.cell r) offs M.nCol) h h' ∧ ∀ c, offs ≤ c → c < M.nCol →
        ReadFirst M₁ r₁ M r offs c → Added M₁ r₁ alpha M r c h h' := by
  apply (multaddRowFrom_written hM₁ hM hcol hr₁ hr hoffs alpha).mono
  intro _ h' hw
  refine ⟨hw.agreeOff, fun c hlo hc hread => ⟨_, contents_mul M₁ h alpha r₁ c, ?_⟩⟩
  apply hw.load_eq c hlo hc
  intro g hagree
  have hold : M.contents g r c = M.contents h r c :=
    contents_congr (hagree _ (notMem_targets (readFirst_self r r offs hc)))
  have hold₁ : M₁.contents g r₁ c = M₁.contents h r₁ c :=
    contents_congr (hagree _ (notMem_targets hread))
  rw [hold, hold₁]

theorem multRow_scaled (hM : M.Stored h) (hr : r < M.nRow) (alpha : UInt8) :
    Ends (M.multRow r alpha) h fun _ h' =>
      AgreeOff (targets (M.cell r) 0 M.nCol) h h' ∧ ∀ c < M.nCol, Scaled alpha M r c h h' := by
  apply (multRow_written hM hr alpha).mono
  intro _ h' hw
  refine ⟨hw.agreeOff, fun c hc => ⟨_, contents_mul M h alpha r c, ?_⟩⟩
  apply hw.load_eq c (Nat.zero_le c) hc
  intro g hagree
  rw [contents_congr (hagree _ (notMem_targets (readFirst_self r r 0 hc)))]

theorem multColFrom_scaled (hM : M.Stored h) (hc : c < M.nCol) (hoffs : offs ≤ M.nRow)
    (alpha : UInt8) :
    Ends (M.multColFrom c offs alpha) h fun _ h' =>
      AgreeOff (targets (fun j => M.cell j c) offs M.nRow) h h' ∧
        ∀ j, offs ≤ j → j < M.nRow → Scaled alpha M j c h h' := by
  apply (multColFrom_written hM hc hoffs alpha).mono
  intro _ h' hw
  refine ⟨hw.agreeOff, fun j hlo hj => ⟨_, contents_mul M h alpha j c, ?_⟩⟩
  have hbelow : ∀ i, offs ≤ i → i < j → M.cell i c ≠ M.cell j c :=
    fun i _ hij heq => hij.ne ((cell_inj hc hc).mp heq).1
  apply hw.load_eq j hlo hj
  intro g hagree
  rw [contents_congr (hagree _ (notMem_targets hbelow))]

/-- The operations with logarithm tables compute in the field and write their targets
only.  An element of the source row counts as it was before the call if it is not
overwritten before it is read, which is always so in one view and between two views
without a common cell. -/
theorem rowColOps_exact (hM : M.Stored h) :
    (∀ {M₁ : M256v} {r₁ r offs : ℕ}, M₁.Stored h → M₁.nCol = M.nCol → r₁ < M₁.nRow →
      r < M.nRow → offs ≤ M.nCol → ∀ alpha,
        Ends (multaddRowFrom M₁ r₁ offs alpha M r) h fun _ h' =>
          AgreeOff (targets (M.cell r) offs M.nCol) h h' ∧
            ∀ c, offs ≤ c → c < M.nCol →
              M₁ = M ∨ Disjoint M.cells M₁.cells ∨ ReadFirst M₁ r₁ M r offs c →
                Added M₁ r₁ alpha M r c h h') ∧
    (∀ {r : ℕ}, r < M.nRow → ∀ alpha,
      Ends (M.multRow r alpha) h fun _ h' =>
        AgreeOff (targets (M.cell r) 0 M.nCol) h h' ∧
          ∀ c < M.nCol, Scaled alpha M r c h h') ∧
    (∀ {c offs : ℕ}, c < M.nCol → offs ≤ M.nRow → ∀ alpha,
      Ends (M.multColFrom c offs alpha) h fun _ h' =>
        AgreeOff (targets (fun j => M.cell j c) offs M.nRow) h h' ∧
          ∀ j, offs ≤ j → j < M.nRow → Scaled alpha M j c h h') ∧
    ∀ {e : ℤ} {v : UInt8}, gf256Exp e = .ok v → 0 ≤ e ∧ e ≤ 509 := by
  refine ⟨?_, multRow_scaled hM, multColFrom_scaled hM, gf256Exp_range⟩
  intro M₁ r₁ r offs hM₁ hcol hr₁ hr hoffs alpha
  apply (multaddRowFrom_added hM₁ hM hcol hr₁ hr hoffs alpha).mono
  rintro _ h' ⟨hagree, hadded⟩
  refine ⟨hagree, fun c hlo hc hfirst => hadded c hlo hc ?_⟩
  rcases hfirst with rfl | hdisj | hread
  · exact readFirst_self r₁ r offs hc
  · exact readFirst_of_disjoint hdisj hcol hr₁ hr hc
  · exact hread

/-- Two views that overlap: the second entry of the source row is the first one of the
target row, so it is new when it is read. -/
theorem multaddRowFrom_overlap :
    Ends ((make 1 3 ⟨0, 0⟩).getSubview 0 0 1 2) ⟨#[#[1, 2, 3]]⟩ fun S h =>
      Ends ((make 1 3 ⟨0, 0⟩).getSubview 0 1 1 2) h fun T h =>
        S.Stored h ∧ T.Stored h ∧ S.nCol = T.nCol ∧
          Ends (multaddRowFrom S 0 0 1 T 0) h fun _ h' => ¬ Added S 0 1 T 0 1 h h' := by
  refine ⟨⟨1, 2, 3, ⟨0, 0⟩, by decide⟩, _, rfl, ⟨1, 2, 3, ⟨0, 1⟩, by decide⟩, _, rfl, ?_⟩
  refine ⟨by unfold Stored; decide, by unfold Stored; decide, rfl, (), ⟨#[#[1, 3, 0]]⟩, rfl, ?_⟩
  rintro ⟨v, hmul, hload⟩
  have hv : gf256Mul 1 2 = .ok 2 := (gf256Mul_eq_ok 1 ⟨2⟩).trans (by rw [one_mul])
  obtain rfl : 2 = v := Except.ok.inj (hv.symm.trans hmul)
  exact absurd hload (by decide)

/-- Row and column operations in a view of a view, whose rows are four bytes apart. -/
theorem rowColOps_exact_subview :
    Ends ((make 3 4 ⟨0, 0⟩).getSubview 0 1 3 3) ⟨#[#[1, 2, 3, 4, 5, 6, 7, 8, 9, 10, 11, 12]]⟩
      fun S h => Ends (S.getSubview 1 0 2 2) h fun T h =>
        (Ends (multaddRowFrom T 1 1 7 T 1) h fun _ h' =>
          AgreeOff (targets (T.cell 1) 1 2) h h' ∧ Added T 1 7 T 1 1 h h') ∧
        (Ends (T.multRow 0 7) h fun _ h' =>
          AgreeOff (targets (T.cell 0) 0 2) h h' ∧ ∀ c < 2, Scaled 7 T 0 c h h') ∧
        Ends (T.multColFrom 1 1 7) h fun _ h' =>
          AgreeOff (targets (fun j => T.cell j 1) 1 2) h h' ∧ Scaled 7 T 1 1 h h' := by
  have hstored : (make 3 4 ⟨0, 0⟩).Stored ⟨#[#[1, 2, 3, 4, 5, 6, 7, 8, 9, 10, 11, 12]]⟩ := by
    unfold Stored
    decide
  apply (getSubview_ends (by decide) (by decide) (by decide)).mono
  rintro S h ⟨hS, rfl⟩
  have hrow := hS.nRow_eq
  have hcol := hS.nCol_eq
  apply (getSubview_ends (by omega) (by omega) (by omega)).mono
  rintro T h ⟨hT, rfl⟩
  obtain ⟨hadd, hmult, hmultCol, -⟩ := rowColOps_exact (hT.stored (hS.stored hstored))
  have hTrow := hT.nRow_eq
  have hTcol := hT.nCol_eq
  rw [hTrow] at hadd hmult hmultCol
  rw [hTcol] at hadd hmult hmultCol
  refine ⟨?_, hmult (by decide) 7, ?_⟩
  · apply (hadd (hT.stored (hS.stored hstored)) hTcol (by omega) (by decide) (by decide) 7).mono
    rintro _ h' ⟨hagree, hadded⟩
    exact ⟨hagree, hadded 1 le_rfl (by decide) (Or.inl rfl)⟩
  · apply (hmultCol (by decide) (by decide) 7).mono
    rintro _ h' ⟨hagree, hscaled⟩
    exact ⟨hagree, hscaled 1 le_rfl (by decide)⟩

end M256v

end TvRQ
