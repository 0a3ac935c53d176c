/-
# Runs of calls and their specification

A component is a state and the calls that can be made to it.  Its specification
has states of its own and says for each call what it may return and where it
may lead.  A client has obligations: a call is only made where it is allowed.

That a component refines its specification is shown call by call.  The rules
here carry this to every run, and properties of the runs of the specification
to what the component returns.
-/

import TvRQ.Lib.Prog

namespace Imperative

variable {σ τ α : Type}

/-! ## Parts of the state -/

/-- Run a program on a part of the state. -/
def within (part : τ → σ) (put : σ → τ → τ) (p : Prog σ α) : Prog τ α :=
  fun s => (p (part s)).map fun r => (r.1, put r.2 s)

@[simp]
theorem ends_within {part : τ → σ} {put : σ → τ → τ} {p : Prog σ α} {s : τ}
    {Q : α → τ → Prop} :
    Ends (within part put p) s Q ↔ Ends p (part s) fun a t => Q a (put t s) := by
  cases hp : p (part s) with
  | error e =>
      constructor
      · rintro ⟨a, t, hrun, -⟩
        simp [within, hp, Except.map] at hrun
      · rintro ⟨a, t, hrun, -⟩
        rw [hp] at hrun
        cases hrun
  | ok r =>
      have hrun : within part put p s = .ok (r.1, put r.2 s) := by simp [within, hp, Except.map]
      rw [ends_of_run hrun, ends_of_run hp]

/-! ## Runs -/

section Runs

variable {ι ρ A : Type} {call : ι → Prog σ ρ} {Step : A → ι → ρ → A → Prop}
  {Allowed : A → ι → Prop} {R : σ → A → Prop}

/-- Make the calls one after the other; the result is what they return. -/
def runAll (call : ι → Prog σ ρ) : List ι → Prog σ (List ρ)
  | [] => pure []
  | c :: cs => do
      let r ← call c
      let rs ← runAll call cs
      pure (r :: rs)

/-- The runs of a specification. -/
inductive Steps (Step : A → ι → ρ → A → Prop) : A → List ι → List ρ → A → Prop
  | nil {a : A} : Steps Step a [] [] a
  | cons {a b e : A} {c : ι} {r : ρ} {cs : List ι} {rs : List ρ} (hstep : Step a c r b)
      (hsteps : Steps Step b cs rs e) : Steps Step a (c :: cs) (r :: rs) e

/-- Every call is allowed where it is made, whatever the calls before it return. -/
def Permitted (Step : A → ι → ρ → A → Prop) (Allowed : A → ι → Prop) : A → List ι → Prop
  | _, [] => True
  | a, c :: cs => Allowed a c ∧ ∀ r b, Step a c r b → Permitted Step Allowed b cs

/-- Every allowed call, made in a state that stands for one of the specification,
ends as the specification says. -/
def Refines (call : ι → Prog σ ρ) (Step : A → ι → ρ → A → Prop) (Allowed : A → ι → Prop)
    (R : σ → A → Prop) : Prop :=
  ∀ {s a c}, R s a → Allowed a c → Ends (call c) s fun r s' => ∃ b, Step a c r b ∧ R s' b

/-- A run of allowed calls is a run of the specification. -/
theorem Refines.runAll_ends (h : Refines call Step Allowed R) {s : σ} {a : A} (hR : R s a)
    {cs : List ι} (hcs : Permitted Step Allowed a cs) :
    Ends (runAll call cs) s fun rs s' => ∃ b, Steps Step a cs rs b ∧ R s' b := by
  induction cs generalizing s a with
  | nil => exact ends_pure.mpr ⟨a, .nil, hR⟩
  | cons c cs ih =>
      apply (h hR hcs.1).bind
      rintro r s₁ ⟨b, hstep, hR₁⟩
      apply (ih hR₁ (hcs.2 r b hstep)).bind
      rintro rs s₂ ⟨e, hsteps, hR₂⟩
      exact ends_pure.mpr ⟨e, .cons hstep hsteps, hR₂⟩

theorem Steps.length_eq {a b : A} {cs : List ι} {rs : List ρ} (hsteps : Steps Step a cs rs b) :
    rs.length = cs.length := by
  induction hsteps with
  | nil => rfl
  | cons _ _ ih => rw [List.length_cons, List.length_cons, ih]

/-- A run of calls that follow each other is two runs. -/
theorem Steps.append_inv {a e : A} {cs₁ cs₂ : List ι} {rs : List ρ}
    (hsteps : Steps Step a (cs₁ ++ cs₂) rs e) :
    ∃ rs₁ rs₂ b, rs = rs₁ ++ rs₂ ∧ Steps Step a cs₁ rs₁ b ∧ Steps Step b cs₂ rs₂ e := by
  induction cs₁ generalizing a rs with
  | nil => exact ⟨[], rs, a, rfl, .nil, hsteps⟩
  | cons c cs ih =>
      cases hsteps with
      | cons hstep hrest =>
          obtain ⟨rs₁, rs₂, b, rfl, h₁, h₂⟩ := ih hrest
          exact ⟨_ :: rs₁, rs₂, b, rfl, .cons hstep h₁, h₂⟩

/-- What every call keeps holds after a run. -/
theorem Steps.keeps {I : A → Prop} {a b : A} {cs : List ι} {rs : List ρ}
    (hsteps : Steps Step a cs rs b)
    (hkeep : ∀ c ∈ cs, ∀ a r b, I a → Step a c r b → I b) (ha : I a) : I b := by
  induction hsteps with
  | nil => exact ha
  | cons hstep _ ih =>
      exact ih (fun c hc => hkeep c (List.mem_cons_of_mem _ hc))
        (hkeep _ List.mem_cons_self _ _ _ ha hstep)

end Runs

end Imperative
