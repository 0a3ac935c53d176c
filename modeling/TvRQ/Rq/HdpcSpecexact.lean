/-
# HDPC rows by the book

`hdpc_generate_mat_specexact` builds the two matrices of the RFC in memory of its
own and multiplies them.  It leaves the rows of `hdpc_generate_mat_faster` when
it gets that memory.  The number of bytes is computed as an `int`, and for the
larger numbers of symbols the second matrix has too many entries for that.
-/

import TvRQ.Algebra.M256vView
import TvRQ.Algebra.MvProduct
import TvRQ.Api.Types
import TvRQ.Rq.Hdpc

namespace TvRQ

open Imperative Heap

/-- Create the MT matrix. -/
def fillMt (MT : M256v) (P : Parameters) : Prog (Heap UInt8) Unit := do
  MvGen.clear MT
  forRange 0 (P.Kprime + P.S - 1) fun j => do
    MT.setEl (flipA P j).toNat j 1
    MT.setEl (flipB P j).toNat j 1
  let _ ← foldRange 0 P.H 1 fun j val => do
    MT.setEl j (P.Kprime + P.S - 1) val
    embed (gf256Mul val 2)
  pure ()

/-- Create the GAMMA matrix. -/
def fillGamma (GAMMA : M256v) (d : ℕ) : Prog (Heap UInt8) Unit := do
  MvGen.clear GAMMA
  let _ ← foldRange 0 d 1 fun i val => do
    forRange i d fun j => GAMMA.setEl j (j - i) val
    embed (gf256Mul val 2)
  pure ()

/-- Write the HDPC rows as the product of the two matrices. -/
def hdpcGenerateMatSpecexact (H : M256v) (P : Parameters) : Prog (Heap UInt8) Unit := do
  ensure (H.nRow = P.H)
  ensure (H.nCol = P.L)
  let mtSize ← embed (intOf (P.H * (P.Kprime + P.S) : ℕ))
  let mt ← alloc mtSize.toNat 0
  let MT := M256v.make P.H (P.Kprime + P.S) mt
  fillMt MT P
  let d := P.Kprime + P.S
  let gammaSize ← embed (intOf (d * d : ℕ))
  let gamma ← alloc gammaSize.toNat 0
  let GAMMA := M256v.make d d gamma
  fillGamma GAMMA d
  let G ← H.getSubview 0 0 P.H (P.Kprime + P.S)
  MvMatrix.mul MT GAMMA G
  let I ← H.getSubview 0 (P.Kprime + P.S) P.H P.H
  MvGen.clear I
  forRange 0 P.H fun i => I.setEl i i 1
  release
  release

variable {P : Parameters} {h : Heap UInt8} {A : Table GF256}

/-! ## The two factors -/

theorem fillMt_ends {MT : M256v} (hP : P.HdpcValid) (hA : MT.Holds h A) (hrow : MT.nRow = P.H)
    (hcol : MT.nCol = P.Kprime + P.S) :
    Ends (fillMt MT P) h fun _ h' => MT.Holds h' (mtTable P) ∧ AgreeOff MT.cells h h' := by
  have hwidth := hP.width_pos
  unfold fillMt
  apply (HeapView.clear_ends hA).bind
  rintro _ h₁ ⟨hclear, hagree₁⟩
  -- Column `j` has its two ones after pass `j`.
  apply (forRange_ends (fun k h' => MT.Holds h' (Table.ones fun r j =>
    j < k ∧ (r = (flipA P j).toNat ∨ r = (flipB P j).toNat)) ∧ AgreeOff MT.cells h h')
    (Nat.zero_le _) ?_ ?_).bind
  · rintro _ h₂ ⟨hones, hagree₂⟩
    apply (powerColumn_ends hones hrow (show P.Kprime + P.S - 1 < MT.nCol by omega)).bind
    rintro _ h₃ ⟨hmt, hagree₃⟩
    refine ends_pure.mpr ⟨hmt.congr fun r _ j hj => ?_, hagree₂.trans hagree₃⟩
    have hiff : j = P.Kprime + P.S - 1 ↔ j + 1 = P.Kprime + P.S := by omega
    rw [mtTable]
    by_cases hlast : j + 1 = P.Kprime + P.S
    · rw [if_pos (hiff.mpr hlast), if_pos hlast]
    · rw [if_neg fun heq => hlast (hiff.mp heq), if_neg hlast]
      exact if_congr (and_iff_right (by omega)) rfl rfl
  · rintro k h₂ - hk ⟨hones, hagree₂⟩
    have hflipA := flipA_lt hP k
    obtain ⟨hflipB, -⟩ := flipB_spec hP k
    apply (M256v.setOne_ends hones (by omega) (by omega)).bind
    rintro _ h₃ ⟨hones₃, hagree₃⟩
    apply (M256v.setOne_ends hones₃ (by omega) (by omega)).mono
    rintro _ h₄ ⟨hones₄, hagree₄⟩
    refine ⟨hones₄.congr fun r _ j _ => if_congr ?_ rfl rfl,
      hagree₂.trans (hagree₃.trans hagree₄)⟩
    by_cases hj : j = k
    · subst hj
      simp only [and_true, lt_irrefl, false_and, or_false, Nat.lt_succ_self, true_and]
      tauto
    · have hiff : j < k + 1 ↔ j < k := by omega
      simp only [hj, and_false, false_or, hiff]
  · exact ⟨hclear.congr fun r _ j _ => by simp [Table.ones], hagree₁⟩

/-- The powers below the diagonal, along the parallels of the diagonal. -/
theorem fillGamma_ends {GAMMA : M256v} {d : ℕ} (hA : GAMMA.Holds h A) (hrow : GAMMA.nRow = d)
    (hcol : GAMMA.nCol = d) :
    Ends (fillGamma GAMMA d) h fun _ h' =>
      GAMMA.Holds h' gammaTable ∧ AgreeOff GAMMA.cells h h' := by
  -- The entries that are written before pass `i`, and up to row `k` in pass `i`.
  let T : ℕ → ℕ → Table GF256 := fun i k r c =>
    if c ≤ r ∧ (r - c < i ∨ (r - c = i ∧ r < k)) then alpha ^ (r - c) else 0
  unfold fillGamma
  apply (HeapView.clear_ends hA).bind
  rintro _ h₁ ⟨hclear, hagree₁⟩
  apply (foldRange_ends (fun i val h' => val = (alpha ^ i).byte ∧ GAMMA.Holds h' (T i i) ∧
    AgreeOff GAMMA.cells h h') (Nat.zero_le d) ?_ ?_).bind
  · rintro _ h₂ ⟨-, hT, hagree₂⟩
    refine ends_pure.mpr ⟨hT.congr fun r hr c _ => ?_, hagree₂⟩
    exact if_congr (by omega) rfl rfl
  · rintro i _ h₂ - hi ⟨rfl, hT, hagree₂⟩
    apply (forRange_ends (fun k h' => GAMMA.Holds h' (T i k) ∧ AgreeOff GAMMA.cells h h')
      hi.le ?_ ⟨hT, hagree₂⟩).bind
    · rintro _ h₃ ⟨hT₃, hagree₃⟩
      refine ends_embed.mpr ⟨_, gf256Mul_eq_ok (alpha ^ i) alpha, by rw [pow_succ],
        hT₃.congr fun r hr c _ => if_congr ?_ rfl rfl, hagree₃⟩
      omega
    · rintro k h₃ hlo hk ⟨hT₃, hagree₃⟩
      apply (M256v.setEl_ends hT₃ (by omega) (by omega) (alpha ^ i)).mono
      rintro _ h₄ ⟨hT₄, hagree₄⟩
      refine ⟨hT₄.congr fun r _ c _ => ?_,
        hagree₃.trans (hagree₄.mono (M256v.rowCells_subset (by omega)))⟩
      by_cases hrc : r = k ∧ c = k - i
      · obtain ⟨rfl, rfl⟩ := hrc
        have hsub : r - (r - i) = i := by omega
        have hin : r - i ≤ r ∧ (r - (r - i) < i ∨ (r - (r - i) = i ∧ r < r + 1)) := by omega
        simp only [Table.set, and_self, if_true, T, if_pos hin, hsub]
      · have hiff : (c ≤ r ∧ (r - c < i ∨ (r - c = i ∧ r < k + 1))) ↔
            (c ≤ r ∧ (r - c < i ∨ (r - c = i ∧ r < k))) := by omega
        simp only [Table.set, if_neg hrc, T, hiff]
  · exact ⟨rfl, hclear.congr fun r _ c _ => by simp [T], hagree₁⟩

theorem keepsShape_fillMt (MT : M256v) (P : Parameters) : KeepsShape (fillMt MT P) :=
  fun sizes => Keeps.bind (M256v.keepsShape_clear MT sizes) fun _ =>
    Keeps.bind (Keeps.forRange fun _ _ _ => Keeps.bind (M256v.keepsShape_setEl _ _ _ _ sizes)
      fun _ => M256v.keepsShape_setEl _ _ _ _ sizes) fun _ =>
        Keeps.bind (Keeps.foldRange _ fun _ _ _ _ =>
          Keeps.bind (M256v.keepsShape_setEl _ _ _ _ sizes) fun _ => Keeps.embed _)
            fun _ => Keeps.pure _

theorem keepsShape_fillGamma (GAMMA : M256v) (d : ℕ) : KeepsShape (fillGamma GAMMA d) :=
  fun sizes => Keeps.bind (M256v.keepsShape_clear GAMMA sizes) fun _ =>
    Keeps.bind (Keeps.foldRange _ fun _ _ _ _ => Keeps.bind
      (Keeps.forRange fun _ _ _ => M256v.keepsShape_setEl _ _ _ _ sizes) fun _ => Keeps.embed _)
        fun _ => Keeps.pure _

/-! ## The rows -/

theorem keepsShape_identity (H : M256v) (P : Parameters) :
    KeepsShape (do
      let I ← H.getSubview 0 (P.Kprime + P.S) P.H P.H
      MvGen.clear I
      forRange 0 P.H fun i => I.setEl i i 1) :=
  fun sizes => Keeps.bind (M256v.keepsShape_getSubview _ _ _ _ _ sizes) fun _ =>
    Keeps.bind (M256v.keepsShape_clear _ sizes) fun _ =>
      Keeps.forRange fun _ _ _ => M256v.keepsShape_setEl _ _ _ _ sizes

/-- The product and the identity, while both factors are in memory. -/
theorem productRows_ends {H MT GAMMA : M256v} (hP : P.HdpcValid) (hA : H.Holds h A)
    (hrow : H.nRow = P.H) (hcol : H.nCol = P.L) (hMT : MT.Holds h (mtTable P))
    (hGAMMA : GAMMA.Holds h gammaTable) (hMTrow : MT.nRow = P.H)
    (hMTcol : MT.nCol = P.Kprime + P.S) (hGrow : GAMMA.nRow = P.Kprime + P.S)
    (hGcol : GAMMA.nCol = P.Kprime + P.S) (hdisjMT : Disjoint H.cells MT.cells)
    (hdisjGAMMA : Disjoint H.cells GAMMA.cells) :
    Ends (do
      let G ← H.getSubview 0 0 P.H (P.Kprime + P.S)
      MvMatrix.mul MT GAMMA G
      let I ← H.getSubview 0 (P.Kprime + P.S) P.H P.H
      MvGen.clear I
      forRange 0 P.H fun i => I.setEl i i 1) h fun _ h' =>
        H.Holds h' (hdpcTable P) ∧ h'.shape = h.shape := by
  have hH := hP.H_ge
  have hL := hP.L_eq
  apply (M256v.getSubview_ends (by omega) (by omega) (by omega)).bind
  rintro G h₁ ⟨hG, rfl⟩
  apply ((HeapView.mul_ends hMT hGAMMA (hG.holds hA) (hdisjMT.mono_left hG.cells_subset)
    (hdisjGAMMA.mono_left hG.cells_subset) (hMTcol.trans hGrow.symm)
    (hMTrow.trans hG.nRow_eq.symm) (hGcol.trans hG.nCol_eq.symm)).keeps
      (M256v.keepsShape_mul _ _ _ _) rfl).bind
  rintro _ h₂ ⟨⟨hproduct, hagree⟩, hshape₂⟩
  apply ((identity_ends hP (hG.holds_patch hA hproduct hagree) hrow hcol).keeps
    (keepsShape_identity H P _) hshape₂).mono
  rintro _ h₃ ⟨⟨hrows, -⟩, hshape₃⟩
  refine ⟨hrows.congr fun r hr c hc => ?_, hshape₃⟩
  rw [hdpcTable]
  by_cases hlt : c < P.Kprime + P.S
  · have hin : 0 ≤ r ∧ r < 0 + P.H ∧ 0 ≤ c ∧ c < 0 + (P.Kprime + P.S) := by omega
    have hwidth : MvGen.nCol MT = P.Kprime + P.S := hMTcol
    rw [if_pos hlt, if_pos hlt, Table.patch, if_pos hin, hwidth]
    rfl
  · rw [if_neg hlt, if_neg hlt]

/-- The rows by the book, when the sizes of both factors are numbers of type `int`. -/
theorem hdpcGenerateMatSpecexact_ends {H : M256v} (hP : P.HdpcValid) (hA : H.Holds h A)
    (hrow : H.nRow = P.H) (hcol : H.nCol = P.L) (hmt : P.H * (P.Kprime + P.S) < 2 ^ 31)
    (hgamma : (P.Kprime + P.S) * (P.Kprime + P.S) < 2 ^ 31) :
    Ends (hdpcGenerateMatSpecexact H P) h fun _ h' => H.Holds h' (hdpcTable P) := by
  unfold hdpcGenerateMatSpecexact
  rw [ends_bind, ends_ensure, ends_bind, ends_ensure, ends_bind, ends_embed]
  refine ⟨hrow, hcol, _, intOf_natCast hmt, ?_⟩
  rw [ends_bind, ends_alloc, Int.toNat_natCast]
  generalize hblock : Array.replicate (P.H * (P.Kprime + P.S)) (0 : UInt8) = block
  have hsize : P.H * (P.Kprime + P.S) ≤ block.size := by rw [← hblock, Array.size_replicate]
  apply ((fillMt_ends hP (M256v.holds_local h hsize) rfl rfl).keeps
    (keepsShape_fillMt _ P _) rfl).bind
  rintro _ h₁ ⟨⟨hMT, hagree₁⟩, hshape₁⟩
  have hA₁ := hA.of_local hagree₁
  rw [ends_bind, ends_embed]
  refine ⟨_, intOf_natCast hgamma, ?_⟩
  rw [ends_bind, ends_alloc, Int.toNat_natCast]
  generalize hblock' : Array.replicate ((P.Kprime + P.S) * (P.Kprime + P.S)) (0 : UInt8) = block'
  have hsize' : (P.Kprime + P.S) * (P.Kprime + P.S) ≤ block'.size := by
    rw [← hblock', Array.size_replicate]
  apply ((fillGamma_ends (M256v.holds_local h₁ hsize') rfl rfl).keeps
    (keepsShape_fillGamma _ _ _) rfl).bind
  rintro _ h₂ ⟨⟨hGAMMA, hagree₂⟩, hshape₂⟩
  have hrows := productRows_ends hP (hA₁.of_local hagree₂) hrow hcol (hMT.of_local hagree₂) hGAMMA
    rfl rfl rfl rfl (hA.disjoint_local _ _) (hA₁.disjoint_local _ _)
  -- What is left to do is to give the memory back.
  suffices hend : ∀ h₃, H.Holds h₃ (hdpcTable P) ∧ h₃.shape = h₂.shape →
      Ends (do release; release) h₃ fun _ h' => H.Holds h' (hdpcTable P) by
    simp only [ends_bind] at hrows ⊢
    apply hrows.mono
    rintro G h₃ hproduct
    apply hproduct.mono
    rintro _ h₄ hsubview
    apply hsubview.mono
    rintro I h₅ hclear
    apply hclear.mono
    rintro _ h₆ hloop
    apply hloop.mono
    rintro _ h₇ hdone
    have hreleased := hend h₇ hdone
    rwa [ends_bind] at hreleased
  rintro h₃ ⟨hT, hshape₃⟩
  rw [ends_bind, ends_release, ends_release]
  have hshape : h₃.shape = (h₁.withBlock block').shape := hshape₃.trans hshape₂
  have hT₁ : H.Holds h₃.dropBlock (hdpcTable P) :=
    HeapView.holds_dropBlock (M := H) hA₁ hT hshape
  apply HeapView.holds_dropBlock (M := H) hA hT₁
  rw [shape_dropBlock, hshape, shape_withBlock, Array.pop_push]
  exact hshape₁

/-- A run that ends has got the memory for the factors. -/
theorem hdpcGenerateMatSpecexact_sizes {H : M256v} {Q : Unit → Heap UInt8 → Prop}
    (hends : Ends (hdpcGenerateMatSpecexact H P) h Q) :
    P.H * (P.Kprime + P.S) < 2 ^ 31 ∧ (P.Kprime + P.S) * (P.Kprime + P.S) < 2 ^ 31 := by
  unfold hdpcGenerateMatSpecexact at hends
  rw [ends_bind, ends_ensure, ends_bind, ends_ensure, ends_bind, ends_embed] at hends
  obtain ⟨-, -, _, hmt, hends⟩ := hends
  rw [ends_bind, ends_alloc, ends_bind] at hends
  obtain ⟨_, h₁, -, hends⟩ := hends
  rw [ends_bind, ends_embed] at hends
  obtain ⟨_, hgamma, -⟩ := hends
  obtain ⟨⟨-, hmt⟩, -⟩ := intOf_eq_ok.mp hmt
  obtain ⟨⟨-, hgamma⟩, -⟩ := intOf_eq_ok.mp hgamma
  exact ⟨by omega, by omega⟩

/-! ## Agreement -/

/-- The rows as a recurrence over columns, as a product, and the identity behind it. -/
structure HdpcRows (P : Parameters) (B : Table GF256) : Prop where
  recurrence : ∀ r c, c + 1 < P.Kprime + P.S → B r c = alpha * B r (c + 1) + mtTable P r c
  product : ∀ r c, c < P.Kprime + P.S →
    B r c = ∑ i ∈ Finset.range (P.Kprime + P.S), mtTable P r i * gammaTable i c
  identity : ∀ r c, c < P.H → B r (P.Kprime + P.S + c) = if r = c then 1 else 0

theorem hdpcRows_hdpcTable (P : Parameters) : HdpcRows P (hdpcTable P) where
  recurrence := fun r c hc => by
    have hlt : c < P.Kprime + P.S := by omega
    rw [hdpcTable, if_pos hlt, hdpcTable, if_pos hc, gHdpcTable_step hlt, add_comm]
  product := fun r c hc => if_pos hc
  identity := fun r c _ => by
    rw [hdpcTable, if_neg (by omega)]
    exact if_congr (by omega) rfl rfl

/-- Both generators leave the same rows, which are those of the RFC. -/
def HdpcAgree (P : Parameters) (H₁ : M256v) (h₁ : Heap UInt8) (H₂ : M256v) (h₂ : Heap UInt8) :
    Prop :=
  ∃ B, HdpcRows P B ∧ Ends (hdpcGenerateMatFaster H₁ P) h₁ (fun _ h' => H₁.Holds h' B) ∧
    Ends (hdpcGenerateMatSpecexact H₂ P) h₂ fun _ h' => H₂.Holds h' B

/-- For all parameters and all contents of the two targets the generators agree
exactly when the sizes of the two factors are numbers of type `int`. -/
theorem hdpcAgree_iff {H₁ H₂ : M256v} {h₁ h₂ : Heap UInt8} {A₁ A₂ : Table GF256} (hH : 2 ≤ P.H)
    (hwidth : 1 ≤ P.Kprime + P.S) (hL : P.L = P.Kprime + P.S + P.H) (hint : P.L < 2 ^ 31)
    (hA₁ : H₁.Holds h₁ A₁) (hrow₁ : H₁.nRow = P.H) (hcol₁ : H₁.nCol = P.L)
    (hA₂ : H₂.Holds h₂ A₂) (hrow₂ : H₂.nRow = P.H) (hcol₂ : H₂.nCol = P.L) :
    HdpcAgree P H₁ h₁ H₂ h₂ ↔
      P.H * (P.Kprime + P.S) < 2 ^ 31 ∧ (P.Kprime + P.S) * (P.Kprime + P.S) < 2 ^ 31 := by
  have hP : P.HdpcValid := ⟨hH, by omega, hwidth, hL⟩
  constructor
  · rintro ⟨_, -, -, hends⟩
    exact hdpcGenerateMatSpecexact_sizes hends
  · rintro ⟨hmt, hgamma⟩
    refine ⟨hdpcTable P, hdpcRows_hdpcTable P, ?_,
      hdpcGenerateMatSpecexact_ends hP hA₂ hrow₂ hcol₂ hmt hgamma⟩
    exact (hdpcGenerateMatFaster_ends hP hA₁ hrow₁ hcol₁).mono fun _ _ hpost => hpost.1

/-- Ten symbols. -/
theorem hdpcAgree_iff_ten : HdpcAgree params10 (.make 10 27 ⟨0, 0⟩) ⟨#[Array.replicate 270 1]⟩
    (.make 10 27 ⟨0, 0⟩) ⟨#[Array.replicate 270 2]⟩ := by
  have hholds : ∀ v : UInt8, (M256v.make 10 27 ⟨0, 0⟩).Holds ⟨#[Array.replicate 270 v]⟩
      (M256v.rowMajor 27 (Array.replicate 270 v)) := fun v => M256v.holds_make rfl (by simp)
  exact (hdpcAgree_iff (by decide) (by decide) rfl (by decide) (hholds 1) rfl rfl (hholds 2) rfl
    rfl).mpr ⟨by decide, by decide⟩

/-- The largest number of symbols, with 57310 rows and columns of GAMMA. -/
theorem not_hdpcAgree_max : ∃ P, parametersGet 56403 = .ok P ∧
    (M256v.make P.H P.L ⟨0, 0⟩).Holds ⟨#[Array.replicate 917216 0]⟩
      (M256v.rowMajor P.L (Array.replicate 917216 0)) ∧
    ¬ HdpcAgree P (.make P.H P.L ⟨0, 0⟩) ⟨#[Array.replicate 917216 0]⟩
      (.make P.H P.L ⟨0, 0⟩) ⟨#[Array.replicate 917216 0]⟩ := by
  refine ⟨⟨56403, 56403, 471, 57326, 907, 16, 56044, 56951, 375, 379, 359⟩, ?_, ?_, ?_⟩
  · decide +kernel
  · exact M256v.holds_make rfl (by simp)
  · rintro ⟨_, -, -, hends⟩
    exact absurd (hdpcGenerateMatSpecexact_sizes hends).2 (by decide)

end TvRQ
