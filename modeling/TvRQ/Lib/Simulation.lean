/-
# Running two programs side by side

`Both p q g Q` says that `p` from the first and `q` from the second state of `g`
both end and that what they return and leave satisfies `Q`.  Programs of the
same shape are compared construct by construct; a loop needs no more than a
relation between the states that its body keeps.
-/

import TvRQ.Lib.Prog

namespace Imperative

variable {σ τ α β γ δ : Type}

/-- The runs of `p` and `q` end, and `Q` relates their results. -/
def Both (p : Prog σ α) (q : Prog τ β) (g : σ × τ) (Q : α → β → σ × τ → Prop) : Prop :=
  Ends p g.1 fun a s => Ends q g.2 fun b t => Q a b (s, t)

section Rules

variable {p : Prog σ α} {q : Prog τ β} {f : α → Prog σ γ} {k : β → Prog τ δ} {g : σ × τ}
  {Q R : α → β → σ × τ → Prop} {S : γ → δ → σ × τ → Prop}

theorem Both.of_ends {P : α → σ → Prop} {T : β → τ → Prop} (hp : Ends p g.1 P)
    (hq : Ends q g.2 T) (himp : ∀ a b g', P a g'.1 → T b g'.2 → Q a b g') : Both p q g Q :=
  hp.mono fun a s hP => hq.mono fun b t hT => himp a b (s, t) hP hT

theorem Both.mono (h : Both p q g Q) (himp : ∀ a b g', Q a b g' → R a b g') : Both p q g R :=
  Ends.mono h fun a s h' => h'.mono fun b t hQ => himp a b (s, t) hQ

theorem both_pure {a : α} {b : β} : Both (pure a) (pure b) g Q ↔ Q a b g := by
  rw [Both, ends_pure, ends_pure]

theorem Both.bind (h : Both p q g Q) (hrest : ∀ a b g', Q a b g' → Both (f a) (k b) g' S) :
    Both (p >>= f) (q >>= k) g S := by
  obtain ⟨a, s, hp, b, t, hq, hQ⟩ := h
  rw [Both, ends_bind, ends_of_run hp]
  apply Ends.mono (hrest a b (s, t) hQ)
  intro c s' h'
  rwa [ends_bind, ends_of_run hq]

theorem both_ensure {c d : Prop} [Decidable c] [Decidable d] (hc : c) (hd : d)
    {f : Unit → Prog σ γ} {k : Unit → Prog τ δ} :
    Both (ensure c >>= f) (ensure d >>= k) g S ↔ Both (f ()) (k ()) g S := by
  rw [ensure, ensure, if_pos hc, if_pos hd]
  rfl

theorem both_readArray {xs : Array ℕ} {i x : ℕ} (hx : xs[i]? = some x) {f : ℕ → Prog σ γ}
    {k : ℕ → Prog τ δ} :
    Both (readArray xs i >>= f) (readArray xs i >>= k) g S ↔ Both (f x) (k x) g S := by
  have hread : ∀ {υ : Type}, (readArray xs i : Prog υ ℕ) = pure x := by
    intro υ
    rw [readArray, hx]
  rw [hread, hread, pure_bind, pure_bind]

theorem both_embed {a : α} {b : β} :
    Both (embed (.ok a) >>= f) (embed (.ok b) >>= k) g S ↔ Both (f a) (k b) g S := Iff.rfl

end Rules

/-! ## Loops -/

section Loops

variable {g : σ × τ} {lo hi : ℕ}

theorem Both.foldLoop {body : ℕ → α → Prog σ α} {body' : ℕ → β → Prog τ β}
    {I : α → β → σ × τ → Prop} (n lo : ℕ)
    (hstep : ∀ i, lo ≤ i → i < lo + n → ∀ a b g, I a b g → Both (body i a) (body' i b) g I)
    {a : α} {b : β} (h : I a b g) : Both (foldLoop body n lo a) (foldLoop body' n lo b) g I := by
  induction n generalizing lo a b g with
  | zero => exact both_pure.mpr h
  | succ n ih =>
      apply (hstep lo le_rfl (Nat.lt_add_of_pos_right n.succ_pos) a b g h).bind
      intro a' b' g' h'
      apply ih (lo + 1) ?_ h'
      intro i hlo hhi
      exact hstep i (Nat.le_of_succ_le hlo) (by omega)

theorem Both.foldRange {body : ℕ → α → Prog σ α} {body' : ℕ → β → Prog τ β}
    {I : α → β → σ × τ → Prop}
    (hstep : ∀ i, lo ≤ i → i < hi → ∀ a b g, I a b g → Both (body i a) (body' i b) g I)
    {a : α} {b : β} (h : I a b g) :
    Both (foldRange lo hi a body) (foldRange lo hi b body') g I :=
  Both.foldLoop (hi - lo) lo (fun i hlo hhi => hstep i hlo (by omega)) h

variable {body : ℕ → Prog σ Unit} {body' : ℕ → Prog τ Unit} {I : σ × τ → Prop}

theorem Both.forRange
    (hstep : ∀ i, lo ≤ i → i < hi → ∀ g, I g → Both (body i) (body' i) g fun _ _ => I)
    (h : I g) : Both (forRange lo hi body) (forRange lo hi body') g fun _ _ => I :=
  Both.foldRange (fun i hlo hhi _ _ g hI => hstep i hlo hhi g hI) h

theorem Both.downLoop (n : ℕ)
    (hstep : ∀ i, lo ≤ i → i < lo + n → ∀ g, I g → Both (body i) (body' i) g fun _ _ => I)
    (h : I g) : Both (downLoop body lo n) (downLoop body' lo n) g fun _ _ => I := by
  induction n generalizing g with
  | zero => exact both_pure.mpr h
  | succ n ih =>
      apply (hstep (lo + n) (Nat.le_add_right lo n) (Nat.lt_succ_self _) g h).bind
      intro _ _ g' h'
      exact ih (fun i hlo hhi => hstep i hlo (by omega)) h'

theorem Both.forDown
    (hstep : ∀ i, lo ≤ i → i < hi → ∀ g, I g → Both (body i) (body' i) g fun _ _ => I)
    (h : I g) : Both (forDown lo hi body) (forDown lo hi body') g fun _ _ => I :=
  Both.downLoop (hi - lo) (fun i hlo hhi => hstep i hlo (by omega)) h

end Loops

end Imperative
