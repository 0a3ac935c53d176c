/-
# The LDPC relation

The relation adds up symbols, the program overwrites entries with ones.  The
two agree as no entry is written twice: the number of LDPC rows is odd and
large enough for the three rows of a column to be different, there are at least
two PI columns, and the three parts have columns of their own.
-/

import Mathlib.Algebra.Module.Pi
import Mathlib.Data.Nat.Prime.Basic
import TvRQ.Lib.Scatter
import TvRQ.Rq.Ldpc

namespace TvRQ

open Imperative Heap Finset Scatter

/-- The sums `D[0], …, D[S - 1]` of the LDPC relation for the symbols `C`. -/
def ldpcSums {V : Type*} [AddCommMonoid V] (P : Parameters) (C : ℕ → V) : ℕ → V :=
  let D := fun s => C (P.B + s)
  let D := (List.range P.B).foldl (fun D i =>
    let a := 1 + i / P.S
    let b := i % P.S
    let D := addAt D b (C i)
    let D := addAt D ((b + a) % P.S) (C i)
    addAt D ((b + 2 * a) % P.S) (C i)) D
  (List.range P.S).foldl (fun D i =>
    let D := addAt D i (C (P.W + i % P.P))
    addAt D i (C (P.W + (i + 1) % P.P))) D

/-! ## No entry is written twice -/

/-- A step that leads back to where it starts is a multiple of the modulus. -/
theorem dvd_of_add_mod_eq {S b k : ℕ} (hb : b < S) (h : (b + k) % S = b) : S ∣ k := by
  have hcongr : b + k ≡ b + 0 [MOD S] := by
    rw [Nat.ModEq, h, add_zero, Nat.mod_eq_of_lt hb]
  exact (Nat.modEq_zero_iff_dvd).mp hcongr.add_left_cancel'

/-- The three rows of a column of the circulant part are different. -/
theorem circulantWrites_nodup {S i : ℕ} (hodd : S % 2 = 1) (hi : 1 + i / S < S) :
    (circulantWrites S i).Nodup := by
  have hpos : 0 < S := Nat.zero_lt_of_lt hi
  have hndvd : ¬ S ∣ 1 + i / S := Nat.not_dvd_of_pos_of_lt (Nat.add_pos_left one_pos _) hi
  have hone : ∀ b < S, (b + (1 + i / S)) % S ≠ b := by
    intro b hb h
    exact hndvd (dvd_of_add_mod_eq hb h)
  have htwo : ∀ b < S, ((b + (1 + i / S)) % S + (1 + i / S)) % S ≠ b := by
    intro b hb h
    rw [Nat.mod_add_mod, add_assoc] at h
    have hdvd : S ∣ 2 * (1 + i / S) := by
      rw [two_mul]
      exact dvd_of_add_mod_eq hb h
    have hcoprime : Nat.Coprime S 2 := (Nat.odd_iff.mpr hodd).coprime_two_right
    exact hndvd (hcoprime.dvd_of_dvd_mul_left hdvd)
  have hb := Nat.mod_lt i hpos
  have hb' := Nat.mod_lt (i % S + (1 + i / S)) hpos
  simp only [circulantWrites, List.nodup_cons, List.mem_cons, List.not_mem_nil, Prod.mk.injEq,
    and_true, or_false, not_or, not_false_iff, List.nodup_nil]
  exact ⟨⟨(hone _ hb).symm, (htwo _ hb).symm⟩, (hone _ hb').symm⟩

/-- The two entries of a row of the double diagonal are different. -/
theorem doubleDiagonalWrites_nodup {P : Parameters} (hP : 2 ≤ P.P) (i : ℕ) :
    (doubleDiagonalWrites P i).Nodup := by
  have hne : (i + 1) % P.P ≠ i % P.P := by
    intro h
    have hmod : (i % P.P + 1) % P.P = i % P.P := by rw [Nat.mod_add_mod, h]
    have hle := Nat.le_of_dvd one_pos (dvd_of_add_mod_eq (Nat.mod_lt i (by omega)) hmod)
    omega
  simp only [doubleDiagonalWrites, List.nodup_cons, List.mem_cons, List.not_mem_nil,
    Prod.mk.injEq, true_and, or_false, not_false_iff, List.nodup_nil, and_true]
  omega

section Writes

variable {P : Parameters}

/-- Parts with rows or columns of their own are joined without repetition. -/
theorem nodup_flatMap_range {n : ℕ} {f : ℕ → List (ℕ × ℕ)} (key : ℕ × ℕ → ℕ)
    (hnodup : ∀ i < n, (f i).Nodup) (hkey : ∀ i, ∀ x ∈ f i, key x = i) :
    ((List.range n).flatMap f).Nodup := by
  rw [List.nodup_flatMap]
  refine ⟨fun i hi => hnodup i (List.mem_range.mp hi), ?_⟩
  apply List.nodup_range.imp
  intro i j hij x hxi hxj
  exact hij ((hkey i x hxi).symm.trans (hkey j x hxj))

theorem circulant_nodup (hP : P.Valid) (hodd : P.S % 2 = 1) (hsq : P.W ≤ P.S * P.S) :
    ((List.range P.B).flatMap (circulantWrites P.S)).Nodup := by
  have hS := hP.S_pos
  have hB := hP.B_add_S
  apply nodup_flatMap_range Prod.snd
  · intro i hi
    apply circulantWrites_nodup hodd
    have hlt : i < P.S * (P.S - 1) := by
      rw [Nat.mul_sub_one]
      omega
    have := Nat.div_lt_of_lt_mul hlt
    omega
  · rintro i ⟨r, c⟩ hx
    exact (mem_circulantWrites.mp hx).1

theorem doubleDiagonal_nodup (hP : P.Valid) :
    ((List.range P.S).flatMap (doubleDiagonalWrites P)).Nodup := by
  have hge := hP.P_ge
  apply nodup_flatMap_range Prod.fst
  · exact fun i _ => doubleDiagonalWrites_nodup (by omega) i
  · rintro i ⟨r, c⟩ hx
    exact (mem_doubleDiagonalWrites.mp hx).1

/-- No entry is written twice, neither in one part nor in two. -/
theorem ldpcWrites_nodup (hP : P.Valid) (hodd : P.S % 2 = 1) (hsq : P.W ≤ P.S * P.S) :
    (ldpcWrites P).Nodup := by
  have hB := hP.B_add_S
  have hdiagonal : ((List.range P.S).map fun i => (i, i + P.B)).Nodup :=
    List.nodup_range.map fun i j h => (Prod.mk.inj h).1
  have hcirculant : ∀ {r c}, (r, c) ∈ (List.range P.B).flatMap (circulantWrites P.S) → c < P.B := by
    intro r c hx
    obtain ⟨i, hi, hmem⟩ := List.mem_flatMap.mp hx
    exact (mem_circulantWrites.mp hmem).1 ▸ List.mem_range.mp hi
  have hmiddle : ∀ {r c}, (r, c) ∈ (List.range P.S).map (fun i => (i, i + P.B)) →
      P.B ≤ c ∧ c < P.W := by
    intro r c hx
    obtain ⟨i, hi, heq⟩ := List.mem_map.mp hx
    have hc := (Prod.mk.inj heq).2
    have := List.mem_range.mp hi
    omega
  have hright : ∀ {r c}, (r, c) ∈ (List.range P.S).flatMap (doubleDiagonalWrites P) →
      P.W ≤ c := by
    intro r c hx
    obtain ⟨i, -, hmem⟩ := List.mem_flatMap.mp hx
    obtain ⟨-, rfl | rfl⟩ := mem_doubleDiagonalWrites.mp hmem
    · exact Nat.le_add_right _ _
    · exact Nat.le_add_right _ _
  refine (circulant_nodup hP hodd hsq).append
    (hdiagonal.append (doubleDiagonal_nodup hP) ?_) ?_
  · rintro ⟨r, c⟩ hx hy
    exact absurd (hright hy) (Nat.not_le_of_lt (hmiddle hx).2)
  · rintro ⟨r, c⟩ hx hy
    have hc := hcirculant hx
    rcases List.mem_append.mp hy with h | h
    · exact absurd (hmiddle h).1 (Nat.not_le_of_lt hc)
    · have := hright h
      omega

/-! ## The sums -/

variable {V : Type*} [AddCommMonoid V] {C : ℕ → V}

/-- The diagonal adds what the sums start from. -/
theorem scatter_diagonal (hP : P.Valid) {s : ℕ} (hs : s < P.S) :
    scatter C ((List.range P.S).map fun i => (i, i + P.B)) 0 s = C (P.B + s) := by
  have hB := hP.B_add_S
  have hW := hP.W_add_P
  rw [scatter_eq_sum (n := P.L)]
  · have hmem : ∀ c, (s, c) ∈ (List.range P.S).map (fun i => (i, i + P.B)) ↔ c = P.B + s := by
      intro c
      simp only [List.mem_map, List.mem_range, Prod.mk.injEq]
      constructor
      · rintro ⟨i, -, rfl, rfl⟩
        exact Nat.add_comm i P.B
      · rintro rfl
        exact ⟨s, hs, rfl, Nat.add_comm s P.B⟩
    simp only [hmem, sum_ite_eq', Pi.zero_apply, zero_add]
    exact if_pos (mem_range.mpr (by omega))
  · exact List.nodup_range.map fun i j h => (Prod.mk.inj h).1
  · rintro ⟨r, c⟩ hx
    obtain ⟨i, hi, heq⟩ := List.mem_map.mp hx
    have hc := (Prod.mk.inj heq).2
    have := List.mem_range.mp hi
    show c < P.L
    omega

/-- The other parts are added by the two loops. -/
theorem ldpcSums_eq_scatter (P : Parameters) (C : ℕ → V) :
    ldpcSums P C = scatter C ((List.range P.B).flatMap (circulantWrites P.S) ++
      (List.range P.S).flatMap (doubleDiagonalWrites P)) fun s => C (P.B + s) := by
  rw [scatter_append, scatter_flatMap, scatter_flatMap]
  have hcirculant : ∀ (D : ℕ → V) i, scatter C (circulantWrites P.S i) D =
      addAt (addAt (addAt D (i % P.S) (C i)) ((i % P.S + (1 + i / P.S)) % P.S) (C i))
        ((i % P.S + 2 * (1 + i / P.S)) % P.S) (C i) := by
    intro D i
    have hrow : ((i % P.S + (1 + i / P.S)) % P.S + (1 + i / P.S)) % P.S =
        (i % P.S + 2 * (1 + i / P.S)) % P.S := by
      rw [Nat.mod_add_mod, add_assoc, two_mul]
    rw [← hrow]
    rfl
  simp only [hcirculant]
  rfl

/-- The sums are the products of the LDPC rows with the symbols. -/
theorem sum_ldpcWrites (hP : P.Valid) (hodd : P.S % 2 = 1) (hsq : P.W ≤ P.S * P.S) {s : ℕ}
    (hs : s < P.S) :
    (∑ c ∈ range P.L, if (s, c) ∈ ldpcWrites P then C c else 0) = ldpcSums P C s := by
  have hfirst : (ldpcWrites P).Perm ((List.range P.S).map (fun i => (i, i + P.B)) ++
      ((List.range P.B).flatMap (circulantWrites P.S) ++
        (List.range P.S).flatMap (doubleDiagonalWrites P))) :=
    List.perm_append_comm_assoc _ _ _
  calc
    (∑ c ∈ range P.L, if (s, c) ∈ ldpcWrites P then C c else 0)
        = scatter C (ldpcWrites P) 0 s := by
          rw [scatter_eq_sum (ldpcWrites_nodup hP hodd hsq) fun x hx => (ldpcWrites_lt hP hx).2,
            Pi.zero_apply, zero_add]
    _ = scatter C ((List.range P.B).flatMap (circulantWrites P.S) ++
          (List.range P.S).flatMap (doubleDiagonalWrites P))
            (scatter C ((List.range P.S).map fun i => (i, i + P.B)) 0) s := by
          rw [scatter_perm hfirst, scatter_append]
    _ = ldpcSums P C s := by
          rw [ldpcSums_eq_scatter]
          exact scatter_congr _ (scatter_diagonal hP hs)

end Writes

/-- For every supported number of symbols, the program clears the matrix and puts
a one at every place of `ldpcWrites`, which has no place twice.  The product of
each of its rows with any symbols is the sum of the relation. -/
theorem ldpcRows_eq_relation {K : ℤ} {P : Parameters} (hget : parametersGet K = .ok P)
    (hK : P.K ≠ -1) :
    (∀ L, ldpcGenerateMat L P = (do
      ensure (L.nRow = P.S)
      ensure (L.nCol = P.L)
      MvGen.clear L
      putOnes L (ldpcWrites P))) ∧
    (ldpcWrites P).Nodup ∧
    ∀ {V : Type} [AddCommGroup V] [Module GF256 V] (C : ℕ → V) {L : M256v} {h A}, L.Holds h A →
      L.nRow = P.S → L.nCol = P.L → Ends (ldpcGenerateMat L P) h fun _ h' =>
        ∃ R, L.Holds h' R ∧ ∀ s < P.S, ∑ c ∈ range P.L, R s c • C c = ldpcSums P C s := by
  have hP := parametersGet_valid hget hK
  obtain ⟨hodd, hsq⟩ := parametersGet_S hget hK
  refine ⟨fun L => ldpcGenerateMat_eq L P, ldpcWrites_nodup hP hodd hsq, ?_⟩
  intro V _ _ C L h A hA hrow hcol
  apply (ldpcGenerateMat_ends hP hA hrow hcol).mono
  rintro _ h' ⟨hholds, -⟩
  refine ⟨ldpcTable P, hholds, ?_⟩
  intro s hs
  rw [← sum_ldpcWrites hP hodd hsq hs]
  apply sum_congr rfl
  intro c _
  simp only [ldpcTable, Table.ones, ite_smul, one_smul, zero_smul]
  exact if_congr (mem_ldpcWrites_iff hs).symm rfl rfl

/-- Ten symbols of two bytes, over junk. -/
theorem ldpcRows_eq_relation_ten :
    (ldpcWrites params10).Nodup ∧
      Ends (ldpcGenerateMat (.make 7 27 ⟨0, 0⟩) params10) ⟨#[Array.replicate 189 255]⟩ fun _ h' =>
        ∃ R, (M256v.make 7 27 ⟨0, 0⟩).Holds h' R ∧ ∀ s < params10.S,
          ∑ c ∈ range params10.L, R s c • (fun _ : Fin 2 => GF256.mk c.toUInt8) =
            ldpcSums params10 (fun c _ => ⟨c.toUInt8⟩) s := by
  obtain ⟨-, hnodup, hends⟩ := ldpcRows_eq_relation parametersGet_ten (by decide)
  have hholds : (M256v.make 7 27 ⟨0, 0⟩).Holds ⟨#[Array.replicate 189 255]⟩
      (M256v.rowMajor 27 (Array.replicate 189 255)) := M256v.holds_make rfl (by simp)
  exact ⟨hnodup, hends (fun c (_ : Fin 2) => GF256.mk c.toUInt8) hholds rfl rfl⟩

end TvRQ
