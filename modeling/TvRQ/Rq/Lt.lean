/-
# LT rows

`lt_generate_mat` writes one row for every internal symbol ID.  The tuple of
the ID describes the columns that get a one: those of a walk below `W` and
those of a walk below `P1` that skips what is not below `P`, moved behind the
first ones.  `ltColumns` lists them as a function of the tuple.

Since `W` and `P1` are primes, no column is listed twice.  The program that
writes ones does not depend on it, but a program that adds up the rows with
these numbers does.  Both visit the columns in the order of the list, and the
lemmas about the two walks are stated for any program that does.
-/

import Mathlib.Algebra.BigOperators.Group.Finset.Basic
import TvRQ.Algebra.M256vView
import TvRQ.Algebra.MvProduct
import TvRQ.Rfc6330.Tuple

namespace TvRQ

open Imperative Heap PrimeWalk

/-- The loop that steps below `P1` until it is below `P`. -/
def skipPi (P : Parameters) (a1 b1 : ℕ) : Except Fault ℕ :=
  whileLoop (fun x => P.P ≤ x) (fun x => (x + a1) % P.P1) (P.P1 + 1) b1

/-- Write the LT row of every internal symbol ID. -/
def ltGenerateMat (M : M256v) (P : Parameters) (nISIs : ℕ) (ISIs : Array UInt32) :
    Prog (Heap UInt8) Unit := do
  ensure (M.nRow = nISIs)
  ensure (M.nCol = P.L)
  MvGen.clear M
  forRange 0 nISIs fun i => do
    let isi ← readArray ISIs i
    let T ← embed (tupleGenerateFromISI isi P)
    M.setEl i T.b 1
    let _ ← foldRange 1 T.d T.b fun _ b => do
      let b := (b + T.a) % P.W
      M.setEl i b 1
      pure b
    let b1 ← embed (skipPi P T.a1 T.b1)
    M.setEl i (P.W + b1) 1
    let _ ← foldRange 1 T.d1 b1 fun _ b1 => do
      let b1 := (b1 + T.a1) % P.P1
      let b1 ← embed (skipPi P T.a1 b1)
      M.setEl i (P.W + b1) 1
      pure b1
    pure ()

/-! ## The columns of a row -/

/-- The visits of the first walk. -/
def bColumns (P : Parameters) (T : Tuple) : List ℕ := (walk P.W T.a T.b).take T.d

/-- The residues of the second walk that are not skipped. -/
def piHits (P : Parameters) (T : Tuple) : List ℕ :=
  (walk P.P1 T.a1 T.b1).filter fun x => !decide (P.P ≤ x)

/-- The visits of the second walk. -/
def piColumns (P : Parameters) (T : Tuple) : List ℕ :=
  ((piHits P T).take T.d1).map (P.W + ·)

/-- The columns with a one, in the order in which they are visited. -/
def ltColumns (P : Parameters) (T : Tuple) : List ℕ := bColumns P T ++ piColumns P T

/-- The LT row of a tuple. -/
def ltRow (P : Parameters) (T : Tuple) (c : ℕ) : GF256 := if c ∈ ltColumns P T then 1 else 0

/-- The LT row of an internal symbol ID. -/
def isiRow (P : Parameters) (X : UInt32) (c : ℕ) : GF256 :=
  match tupleGenerateFromISI X P with
  | .ok T => ltRow P T c
  | .error _ => 0

section Columns

variable {P : Parameters} {T : Tuple}

theorem piHits_nodup (hP : P.Valid) (hT : T.Valid P) : (piHits P T).Nodup :=
  (walk_nodup hP.P1_prime hT.a1_pos hT.a1_lt T.b1).filter _

theorem length_piHits (hP : P.Valid) (hT : T.Valid P) : (piHits P T).length = P.P := by
  have hlen := length_filter_walk hP.P1_prime hT.a1_pos hT.a1_lt T.b1 hP.P_le_P1
  rw [← hlen, piHits]
  congr 1
  refine List.filter_congr fun x _ => ?_
  rw [← decide_not]
  exact decide_eq_decide.mpr not_le

theorem mem_piHits_lt {x : ℕ} (hx : x ∈ piHits P T) : x < P.P := by
  have := (List.mem_filter.mp hx).2
  simpa using this

theorem mem_bColumns_lt {c : ℕ} (hc : c ∈ bColumns P T) : c < P.W :=
  mem_walk_lt (List.mem_of_mem_take hc)

/-- No column is visited twice. -/
theorem ltColumns_nodup (hP : P.Valid) (hT : T.Valid P) : (ltColumns P T).Nodup := by
  refine List.nodup_append.mpr ⟨?_, ?_, ?_⟩
  · exact (walk_nodup hP.W_prime hT.a_pos hT.a_lt T.b).sublist (List.take_sublist _ _)
  · exact ((piHits_nodup hP hT).sublist (List.take_sublist _ _)).map (add_right_injective P.W)
  · intro c hc c' hc' heq
    have hlt := mem_bColumns_lt hc
    obtain ⟨x, -, rfl⟩ := List.mem_map.mp hc'
    omega

theorem mem_ltColumns_lt (hP : P.Valid) {c : ℕ} (hc : c ∈ ltColumns P T) : c < P.L := by
  have hL := hP.W_add_P
  rcases List.mem_append.mp hc with hc | hc
  · have := mem_bColumns_lt hc
    omega
  · obtain ⟨x, hx, rfl⟩ := List.mem_map.mp hc
    have := mem_piHits_lt (List.mem_of_mem_take hx)
    omega

/-- A product with the row is a sum over the visited columns. -/
theorem sum_ltRow_mul (hP : P.Valid) (hT : T.Valid P) (C : ℕ → GF256) :
    ∑ c ∈ Finset.range P.L, ltRow P T c * C c = ((ltColumns P T).map C).sum := by
  have hsub : (ltColumns P T).toFinset ⊆ Finset.range P.L := fun c hc =>
    Finset.mem_range.mpr (mem_ltColumns_lt hP (List.mem_toFinset.mp hc))
  rw [← List.sum_toFinset _ (ltColumns_nodup hP hT), ← Finset.sum_subset hsub fun c _ hc => ?_]
  · refine Finset.sum_congr rfl fun c hc => ?_
    rw [ltRow, if_pos (List.mem_toFinset.mp hc), one_mul]
  · rw [ltRow, if_neg fun hmem => hc (List.mem_toFinset.mpr hmem), zero_mul]

end Columns

/-! ## Programs that visit the columns -/

section Visits

variable {σ : Type} {P : Parameters} {T : Tuple} {visit : ℕ → Prog σ Unit}
  {J : List ℕ → σ → Prop} {s : σ} {visited : List ℕ}

/-- The first walk, after its first visit. -/
theorem bWalk_ends (hP : P.Valid) (hT : T.Valid P)
    (hvisit : ∀ l c s, c < P.L → J l s → Ends (visit c) s fun _ => J (l ++ [c]))
    (h0 : J [T.b] s) :
    Ends (foldRange 1 T.d T.b fun _ b => do
      let b := (b + T.a) % P.W
      visit b
      pure b) s fun _ => J (bColumns P T) := by
  have hget : ∀ k, k < P.W → (walk P.W T.a T.b).take (k + 1) =
      (walk P.W T.a T.b).take k ++ [(T.b + k * T.a) % P.W] := fun k hk => by
    rw [List.take_succ_eq_append_getElem (by simpa using hk)]
    simp [walk]
  refine (foldRange_ends (fun k b s => b = (T.b + (k - 1) * T.a) % P.W ∧
    J ((walk P.W T.a T.b).take k) s) hT.d_pos (fun k b s hlo hhi hI => ?_) ⟨?_, ?_⟩).mono
    fun _ _ hpost => hpost.2
  · obtain ⟨hb, hJ⟩ := hI
    have hW := hT.d_le
    have hL := hP.W_add_P
    have hnext : (b + T.a) % P.W = (T.b + k * T.a) % P.W := by
      rw [hb, Nat.mod_add_mod, Nat.add_assoc, ← Nat.succ_mul, Nat.succ_eq_add_one,
        Nat.sub_add_cancel hlo]
    have hlt : (b + T.a) % P.W < P.W := Nat.mod_lt _ (by omega)
    refine (hvisit _ _ s (by omega) hJ).bind fun _ s' hJ' => ends_pure.mpr ⟨?_, ?_⟩
    · rw [hnext, Nat.add_sub_cancel]
    · rw [hget k (by omega), ← hnext]
      exact hJ'
  · simp [Nat.mod_eq_of_lt hT.b_lt]
  · rw [hget 0 (hT.d_pos.trans hT.d_le)]
    simpa [Nat.mod_eq_of_lt hT.b_lt] using h0

/-- The state of the second walk: it stands at `b1`, and what it will not skip
behind are the hits from number `k` on. -/
def PiAt (P : Parameters) (T : Tuple) (k b1 : ℕ) : Prop :=
  ∃ rest, (b1 :: rest) <:+ walk P.P1 T.a1 T.b1 ∧
    (piHits P T).drop k = b1 :: rest.filter fun x => !decide (P.P ≤ x)

/-- Skipping from any point of the walk with a hit left ends at the next one. -/
theorem skipPi_spec {b1 k : ℕ} {rest : List ℕ}
    (hsuf : (b1 :: rest) <:+ walk P.P1 T.a1 T.b1)
    (hhits : (piHits P T).drop k = (b1 :: rest).filter fun x => !decide (P.P ≤ x))
    (hk : k < (piHits P T).length) :
    ∃ y, skipPi P T.a1 b1 = .ok y ∧ PiAt P T k y := by
  have hchain := (walk_chain P.P1 T.a1 T.b1).suffix hsuf
  have hne : (b1 :: rest).filter (fun x => !decide (P.P ≤ x)) ≠ [] := by
    rw [← hhits]
    intro hnil
    rw [List.drop_eq_nil_iff] at hnil
    omega
  obtain ⟨z, hz, hzP⟩ := List.exists_mem_of_ne_nil _ hne |>.imp fun z hz => List.mem_filter.mp hz
  have hlen := hsuf.length_le
  rw [length_walk, List.length_cons] at hlen
  obtain ⟨y, rest', hrun, -, hsuf', hfilter⟩ := whileLoop_chain (fun x => decide (P.P ≤ x))
    hchain ⟨z, hz, by simpa using hzP⟩ (show rest.length < P.P1 + 1 by omega)
  exact ⟨y, hrun, rest', hsuf'.trans hsuf, by rw [hhits, hfilter]⟩

/-- The first hit of the second walk. -/
theorem skipPi_first (hP : P.Valid) (hT : T.Valid P) :
    ∃ y, skipPi P T.a1 T.b1 = .ok y ∧ PiAt P T 0 y := by
  obtain ⟨rest, hrest⟩ := walk_eq_cons (a := T.a1) hT.b1_lt
  have hlen := length_piHits hP hT
  have hge := hP.P_ge
  have hsuf : (T.b1 :: rest) <:+ walk P.P1 T.a1 T.b1 := by rw [hrest]
  refine skipPi_spec hsuf ?_ (by omega)
  rw [List.drop_zero, piHits, hrest]

/-- The hit after the one the walk stands at. -/
theorem PiAt.next {k b1 : ℕ} (h : PiAt P T k b1) (hk : k + 1 < (piHits P T).length) :
    ∃ y, skipPi P T.a1 ((b1 + T.a1) % P.P1) = .ok y ∧ PiAt P T (k + 1) y := by
  obtain ⟨rest, hsuf, hhits⟩ := h
  have hdrop : (piHits P T).drop (k + 1) = rest.filter fun x => !decide (P.P ≤ x) := by
    rw [← List.tail_drop, hhits, List.tail_cons]
  cases rest with
  | nil =>
      rw [List.filter_nil, List.drop_eq_nil_iff] at hdrop
      omega
  | cons z rest =>
      have hchain := (walk_chain P.P1 T.a1 T.b1).suffix hsuf
      rw [List.isChain_cons_cons] at hchain
      rw [hchain.1]
      exact skipPi_spec ((List.suffix_cons b1 _).trans hsuf) hdrop hk

theorem PiAt.take_succ {k b1 : ℕ} (h : PiAt P T k b1) :
    (piHits P T).take (k + 1) = (piHits P T).take k ++ [b1] ∧ b1 < P.P := by
  obtain ⟨rest, -, hhits⟩ := h
  have hget : (piHits P T)[k]? = some b1 := by
    rw [← List.head?_drop, hhits, List.head?_cons]
  refine ⟨by rw [List.take_add_one, hget]; rfl, mem_piHits_lt (List.mem_of_getElem? hget)⟩

/-- The second walk, with any loop that does one step and then skips. -/
theorem piWalk_ends (hP : P.Valid) (hT : T.Valid P)
    (hvisit : ∀ l c s, c < P.L → J l s → Ends (visit c) s fun _ => J (l ++ [c]))
    (h0 : J visited s) :
    Ends (do
      let b1 ← embed (skipPi P T.a1 T.b1)
      visit (P.W + b1)
      let _ ← foldRange 1 T.d1 b1 fun _ b1 => do
        let b1 ← embed (skipPi P T.a1 ((b1 + T.a1) % P.P1))
        visit (P.W + b1)
        pure b1
      pure ()) s fun _ => J (visited ++ piColumns P T) := by
  have hL := hP.W_add_P
  have hlen := length_piHits hP hT
  have hge := hP.P_ge
  have hd1 := hT.d1_le
  have hstep : ∀ k b1 s, PiAt P T k b1 →
      J (visited ++ ((piHits P T).take k).map (P.W + ·)) s → Ends (visit (P.W + b1)) s
        fun _ => J (visited ++ ((piHits P T).take (k + 1)).map (P.W + ·)) := by
    intro k b1 s hat hJ
    obtain ⟨htake, hlt⟩ := hat.take_succ
    refine (hvisit _ _ s (by omega) hJ).mono fun _ s' hJ' => ?_
    rw [htake, List.map_append, ← List.append_assoc]
    exact hJ'
  obtain ⟨y, hy, hat⟩ := skipPi_first hP hT
  rw [ends_bind, ends_embed]
  refine ⟨y, hy, (hstep 0 y s hat (by simpa using h0)).bind fun _ s₁ hJ₁ => ?_⟩
  refine (foldRange_ends (fun k b1 s => PiAt P T (k - 1) b1 ∧
    J (visited ++ ((piHits P T).take k).map (P.W + ·)) s) hT.d1_pos
    (fun k b1 s hlo hhi hI => ?_) ⟨hat, hJ₁⟩).bind fun _ s₂ hpost => ends_pure.mpr hpost.2
  have hsucc : k - 1 + 1 = k := by omega
  obtain ⟨y', hy', hat'⟩ := hI.1.next (by omega)
  rw [hsucc] at hat'
  rw [ends_bind, ends_embed]
  refine ⟨y', hy', (hstep k y' s hat' hI.2).bind fun _ s' hJ' => ends_pure.mpr ⟨?_, hJ'⟩⟩
  rw [Nat.add_sub_cancel]
  exact hat'

end Visits

/-! ## The rows that are written -/

/-- The matrix gets the LT row of every ID. -/
theorem ltGenerateMat_ends {M : M256v} {P : Parameters} {n : ℕ} {ISIs : Array UInt32}
    {h : Heap UInt8} {A : Table GF256} (hP : P.Valid) (hA : M.Holds h A) (hrow : M.nRow = n)
    (hcol : M.nCol = P.L) (hsize : ISIs.size = n) :
    Ends (ltGenerateMat M P n ISIs) h fun _ h' =>
      M.Holds h' (fun i c => isiRow P (ISIs.getD i 0) c) ∧ AgreeOff M.cells h h' := by
  unfold ltGenerateMat
  simp only [ends_bind, ends_ensure]
  refine ⟨hrow, hcol, (HeapView.clear_ends hA).mono fun _ h₁ hclear => ?_⟩
  let R : ℕ → Table GF256 := fun k i c => if i < k then isiRow P (ISIs.getD i 0) c else 0
  refine (forRange_ends (fun k h' => M.Holds h' (R k) ∧ AgreeOff M.cells h h') (Nat.zero_le n)
    (fun k h₂ _ hk hI => ?_) ⟨hclear.1.congr fun i _ c _ => by simp [R], hclear.2⟩).mono
    fun _ h' hpost => ⟨hpost.1.congr fun i hi c _ => if_pos (by omega), hpost.2⟩
  obtain ⟨T, hT, hTvalid⟩ := tupleGenerateFromISI_spec hP (ISIs.getD k 0)
  -- Row `k` has ones in the columns visited so far.
  let J : List ℕ → Heap UInt8 → Prop := fun l h' =>
    M.Holds h' (fun i c => if i = k ∧ c ∈ l then 1 else R k i c) ∧ AgreeOff M.cells h h'
  have hvisit : ∀ l c h', c < P.L → J l h' → Ends (M.setEl k c 1) h' fun _ => J (l ++ [c]) := by
    intro l c h' hc hJ
    refine (M256v.setEl_ends hJ.1 (by omega) (by omega) 1).mono fun _ h'' hpost =>
      ⟨hpost.1.congr fun i _ j _ => ?_,
        hJ.2.trans (hpost.2.mono (M256v.rowCells_subset (by omega)))⟩
    by_cases hij : i = k ∧ j = c
    · simp [Table.set, hij]
    · have hiff : (i = k ∧ j ∈ l ++ [c]) ↔ (i = k ∧ j ∈ l) := by
        rw [List.mem_append, List.mem_singleton]
        tauto
      simp only [Table.set, if_neg hij, hiff]
  have hnil : J [] h₂ := ⟨hI.1.congr fun i _ c _ => by simp, hI.2⟩
  have hread : ISIs[k]? = some (ISIs.getD k 0) := by
    rw [Array.getD_eq_getD_getElem?, Array.getElem?_eq_getElem (by omega)]
    rfl
  have hL := hP.W_add_P
  have hb := hTvalid.b_lt
  simp only [ends_bind, ends_readArray, ends_embed]
  refine ⟨_, hread, T, hT, (hvisit [] T.b h₂ (by omega) hnil).mono fun _ h₃ h₃J => ?_⟩
  refine (bWalk_ends hP hTvalid hvisit h₃J).mono fun _ h₄ h₄J => ?_
  have hpi := piWalk_ends hP hTvalid hvisit h₄J
  simp only [ends_bind, ends_embed] at hpi
  obtain ⟨b1, hb1, hrest⟩ := hpi
  refine ⟨b1, hb1, hrest.mono fun _ h₅ hend => hend.mono fun _ h₆ hJ => ?_⟩
  rw [ends_pure] at hJ ⊢
  have hrow_eq : ∀ c, isiRow P (ISIs.getD k 0) c = ltRow P T c := fun c => by rw [isiRow, hT]
  refine ⟨hJ.1.congr fun i _ c _ => ?_, hJ.2⟩
  by_cases hi : i = k
  · subst hi
    show (if i = i ∧ c ∈ bColumns P T ++ piColumns P T then (1 : GF256) else R i i c) =
      if i < i + 1 then isiRow P (ISIs.getD i 0) c else 0
    rw [if_pos (Nat.lt_succ_self i), hrow_eq, ltRow, ltColumns]
    by_cases hc : c ∈ bColumns P T ++ piColumns P T
    · rw [if_pos ⟨rfl, hc⟩, if_pos hc]
    · rw [if_neg fun hboth => hc hboth.2, if_neg hc]
      exact if_neg (lt_irrefl i)
  · have hiff : i < k + 1 ↔ i < k := by omega
    simp only [R, hi, false_and, if_false, hiff]

end TvRQ
