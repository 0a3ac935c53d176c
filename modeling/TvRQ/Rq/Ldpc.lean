/-
# LDPC rows

`ldpc_generate_mat` writes three parts side by side: circulant blocks with
three ones in every column, a diagonal, and two neighbouring diagonals that
wrap around.
-/

import TvRQ.Algebra.M256vView
import TvRQ.Algebra.MvProduct
import TvRQ.Rfc6330.Parameters

namespace TvRQ

open Imperative Heap

/-- Write the LDPC rows. -/
def ldpcGenerateMat (L : M256v) (P : Parameters) : Prog (Heap UInt8) Unit := do
  ensure (L.nRow = P.S)
  ensure (L.nCol = P.L)
  MvGen.clear L
  forRange 0 P.B fun i => do
    let a := 1 + i / P.S
    let b := i % P.S
    L.setEl b i 1
    let b := (b + a) % P.S
    L.setEl b i 1
    let b := (b + a) % P.S
    L.setEl b i 1
  forRange 0 P.S fun i => L.setEl i (i + P.B) 1
  forRange 0 P.S fun i => do
    let a := i % P.P
    let b := (i + 1) % P.P
    L.setEl i (P.W + a) 1
    L.setEl i (P.W + b) 1

/-! ## The rows as a table -/

/-- Row `r` of column `c` of the circulant part is one of the three rows. -/
def InCirculant (S r c : ℕ) : Prop :=
  r = c % S ∨ r = (c % S + (1 + c / S)) % S ∨
    r = ((c % S + (1 + c / S)) % S + (1 + c / S)) % S

instance (S r c : ℕ) : Decidable (InCirculant S r c) := inferInstanceAs (Decidable (_ ∨ _))

/-- Where the LDPC rows have ones. -/
def LdpcOne (P : Parameters) (r c : ℕ) : Prop :=
  (c < P.B ∧ InCirculant P.S r c) ∨ c = r + P.B ∨ c = P.W + r % P.P ∨ c = P.W + (r + 1) % P.P

instance (P : Parameters) (r c : ℕ) : Decidable (LdpcOne P r c) :=
  inferInstanceAs (Decidable (_ ∨ _))

/-- The LDPC rows. -/
def ldpcTable (P : Parameters) : Table GF256 := Table.ones (LdpcOne P)

/-! ## The order of the writes -/

/-- The places of column `i` in the circulant part. -/
def circulantWrites (S i : ℕ) : List (ℕ × ℕ) :=
  let a := 1 + i / S
  let b := i % S
  [(b, i), ((b + a) % S, i), (((b + a) % S + a) % S, i)]

/-- The places of row `i` in the double diagonal. -/
def doubleDiagonalWrites (P : Parameters) (i : ℕ) : List (ℕ × ℕ) :=
  [(i, P.W + i % P.P), (i, P.W + (i + 1) % P.P)]

/-- The rows and columns that `ldpc_generate_mat` writes a one to, in order. -/
def ldpcWrites (P : Parameters) : List (ℕ × ℕ) :=
  (List.range P.B).flatMap (circulantWrites P.S) ++
    ((List.range P.S).map (fun i => (i, i + P.B)) ++
      (List.range P.S).flatMap (doubleDiagonalWrites P))

/-- Put ones at the places of a list. -/
def putOnes (L : M256v) (places : List (ℕ × ℕ)) : Prog (Heap UInt8) Unit :=
  forM places fun x => L.setEl x.1 x.2 1

/-- After clearing, the matrix is written at the places of `ldpcWrites`. -/
theorem ldpcGenerateMat_eq (L : M256v) (P : Parameters) :
    ldpcGenerateMat L P = (do
      ensure (L.nRow = P.S)
      ensure (L.nCol = P.L)
      MvGen.clear L
      putOnes L (ldpcWrites P)) := by
  have hcirculant : putOnes L ((List.range P.B).flatMap (circulantWrites P.S)) =
      forRange 0 P.B fun i => putOnes L (circulantWrites P.S i) := by
    rw [forRange_eq_forM]
    exact forM_flatMap _ _ _
  have hdiagonal : putOnes L ((List.range P.S).map fun i => (i, i + P.B)) =
      forRange 0 P.S fun i => L.setEl i (i + P.B) 1 := by
    rw [forRange_eq_forM]
    exact List.forM_map
  have hdouble : putOnes L ((List.range P.S).flatMap (doubleDiagonalWrites P)) =
      forRange 0 P.S fun i => putOnes L (doubleDiagonalWrites P i) := by
    rw [forRange_eq_forM]
    exact forM_flatMap _ _ _
  have happend : ∀ l₁ l₂, putOnes L (l₁ ++ l₂) = putOnes L l₁ >>= fun _ => putOnes L l₂ :=
    fun _ _ => List.forM_append
  rw [ldpcWrites, happend, happend, hcirculant, hdiagonal, hdouble]
  simp only [ldpcGenerateMat, circulantWrites, doubleDiagonalWrites, putOnes, List.forM_cons,
    List.forM_nil, bind_pure_unit]

theorem mem_circulantWrites {S i r c : ℕ} :
    (r, c) ∈ circulantWrites S i ↔ c = i ∧ InCirculant S r c := by
  simp only [circulantWrites, List.mem_cons, Prod.mk.injEq, List.not_mem_nil, or_false,
    InCirculant]
  constructor
  · rintro (⟨rfl, rfl⟩ | ⟨rfl, rfl⟩ | ⟨rfl, rfl⟩)
    · exact ⟨rfl, Or.inl rfl⟩
    · exact ⟨rfl, Or.inr (Or.inl rfl)⟩
    · exact ⟨rfl, Or.inr (Or.inr rfl)⟩
  · rintro ⟨rfl, h⟩
    simpa using h

theorem mem_doubleDiagonalWrites {P : Parameters} {i r c : ℕ} :
    (r, c) ∈ doubleDiagonalWrites P i ↔
      r = i ∧ (c = P.W + r % P.P ∨ c = P.W + (r + 1) % P.P) := by
  simp only [doubleDiagonalWrites, List.mem_cons, Prod.mk.injEq, List.not_mem_nil, or_false]
  constructor
  · rintro (⟨rfl, rfl⟩ | ⟨rfl, rfl⟩)
    · exact ⟨rfl, Or.inl rfl⟩
    · exact ⟨rfl, Or.inr rfl⟩
  · rintro ⟨rfl, h⟩
    simpa using h

/-- The places that are written, part by part. -/
theorem mem_ldpcWrites {P : Parameters} {r c : ℕ} :
    (r, c) ∈ ldpcWrites P ↔ (c < P.B ∧ InCirculant P.S r c) ∨ (r < P.S ∧ c = r + P.B) ∨
      (r < P.S ∧ (c = P.W + r % P.P ∨ c = P.W + (r + 1) % P.P)) := by
  simp only [ldpcWrites, List.mem_append, List.mem_flatMap, List.mem_map, List.mem_range,
    mem_circulantWrites, mem_doubleDiagonalWrites, Prod.mk.injEq]
  refine or_congr ?_ (or_congr ?_ ?_)
  · constructor
    · rintro ⟨i, hi, rfl, h⟩
      exact ⟨hi, h⟩
    · rintro ⟨hc, h⟩
      exact ⟨c, hc, rfl, h⟩
  · constructor
    · rintro ⟨i, hi, rfl, rfl⟩
      exact ⟨hi, rfl⟩
    · rintro ⟨hr, rfl⟩
      exact ⟨r, hr, rfl, rfl⟩
  · constructor
    · rintro ⟨i, hi, rfl, h⟩
      exact ⟨hi, h⟩
    · rintro ⟨hr, h⟩
      exact ⟨r, hr, rfl, h⟩

/-- In the rows of the matrix these are the ones of the table. -/
theorem mem_ldpcWrites_iff {P : Parameters} {r c : ℕ} (hr : r < P.S) :
    (r, c) ∈ ldpcWrites P ↔ LdpcOne P r c := by
  simp only [mem_ldpcWrites, hr, true_and]
  rfl

theorem ldpcWrites_lt {P : Parameters} (hP : P.Valid) {x : ℕ × ℕ} (hx : x ∈ ldpcWrites P) :
    x.1 < P.S ∧ x.2 < P.L := by
  have hS := hP.S_pos
  have hB := hP.B_add_S
  have hW := hP.W_add_P
  have hge := hP.P_ge
  have hmod : ∀ y, y % P.P < P.P := fun y => Nat.mod_lt y (by omega)
  have hrow : ∀ y, y % P.S < P.S := fun y => Nat.mod_lt y (by omega)
  rcases mem_ldpcWrites.mp hx with ⟨hc, hin⟩ | ⟨hr, hc⟩ | ⟨hr, hc | hc⟩
  · refine ⟨?_, by omega⟩
    rcases hin with h | h | h
    · exact h ▸ hrow _
    · exact h ▸ hrow _
    · exact h ▸ hrow _
  · exact ⟨hr, by omega⟩
  · have := hmod x.1
    exact ⟨hr, by omega⟩
  · have := hmod (x.1 + 1)
    exact ⟨hr, by omega⟩

section Generate

variable {L : M256v} {P : Parameters} {h h₀ : Heap UInt8}

/-- The view holds ones where `p` holds, and nothing else has changed since `h₀`. -/
def Marked (L : M256v) (h₀ : Heap UInt8) (p : ℕ → ℕ → Prop) [∀ i j, Decidable (p i j)]
    (h : Heap UInt8) : Prop :=
  L.Holds h (Table.ones p) ∧ AgreeOff L.cells h₀ h

variable {p q : ℕ → ℕ → Prop} [∀ i j, Decidable (p i j)] [∀ i j, Decidable (q i j)]

theorem Marked.congr (hp : Marked L h₀ p h) (hiff : ∀ i < L.nRow, ∀ j < L.nCol, p i j ↔ q i j) :
    Marked L h₀ q h :=
  ⟨hp.1.congr fun i hi j hj => if_congr (hiff i hi j hj) rfl rfl, hp.2⟩

/-- Putting a one. -/
theorem Marked.setEl_ends (hp : Marked L h₀ p h) {r c : ℕ} (hr : r < L.nRow) (hc : c < L.nCol) :
    Ends (L.setEl r c 1) h fun _ =>
      Marked L h₀ fun i j => (i = r ∧ j = c) ∨ p i j :=
  (M256v.setOne_ends hp.1 hr hc).mono fun _ _ hpost => ⟨hpost.1, hp.2.trans hpost.2⟩

/-- Putting ones at the places of a list. -/
theorem putOnes_ends (places : List (ℕ × ℕ)) (hp : Marked L h₀ p h)
    (hin : ∀ x ∈ places, x.1 < L.nRow ∧ x.2 < L.nCol) :
    Ends (putOnes L places) h fun _ => Marked L h₀ fun i j => (i, j) ∈ places ∨ p i j := by
  unfold putOnes
  induction places generalizing p h with
  | nil => exact ends_pure.mpr (hp.congr fun i _ j _ => by simp)
  | cons x places ih =>
      rw [List.forM_cons]
      have hx := hin x List.mem_cons_self
      refine (hp.setEl_ends hx.1 hx.2).bind fun _ h₁ h₁p => ?_
      refine (ih h₁p fun y hy => hin y (List.mem_cons_of_mem x hy)).mono fun _ h₂ h₂p =>
        h₂p.congr fun i _ j _ => ?_
      rw [List.mem_cons, Prod.ext_iff]
      tauto

/-- The matrix gets the LDPC rows. -/
theorem ldpcGenerateMat_ends {A : Table GF256} (hP : P.Valid) (hA : L.Holds h A)
    (hrow : L.nRow = P.S) (hcol : L.nCol = P.L) :
    Ends (ldpcGenerateMat L P) h fun _ h' =>
      L.Holds h' (ldpcTable P) ∧ AgreeOff L.cells h h' := by
  rw [ldpcGenerateMat_eq, ends_bind, ends_ensure, ends_bind, ends_ensure]
  refine ⟨hrow, hcol, (HeapView.clear_ends hA).bind fun _ h₁ hclear => ?_⟩
  have h₁p : Marked L h (fun _ _ => False) h₁ :=
    ⟨hclear.1.congr fun _ _ _ _ => rfl, hclear.2⟩
  have hin : ∀ x ∈ ldpcWrites P, x.1 < L.nRow ∧ x.2 < L.nCol := by
    intro x hx
    rw [hrow, hcol]
    exact ldpcWrites_lt hP hx
  refine (putOnes_ends (ldpcWrites P) h₁p hin).mono fun _ h₂ h₂p => ?_
  refine ⟨h₂p.1.congr fun i hi j _ => if_congr ?_ rfl rfl, h₂p.2⟩
  exact (iff_of_eq (or_false _)).trans (mem_ldpcWrites_iff (hrow ▸ hi))

end Generate

end TvRQ
