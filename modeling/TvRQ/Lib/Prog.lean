/-
# Faulting imperative programs

A C function over one piece of memory is a state transformer that either ends
with a value or stops at a fault.  The rules below are for total correctness:
`Ends p s Q` says that the run of `p` from `s` reaches no fault and ends in a
result satisfying `Q`.  Every counted loop has an executable definition by
recursion on the number of remaining iterations and one invariant rule.
-/

import Mathlib.Data.Nat.Basic
import Mathlib.Logic.Function.Iterate
import Mathlib.Tactic.Common

namespace Imperative

/-- The ways in which a run can stop before returning. -/
inductive Fault
  | assertion
  | outOfBounds
  | overflow
  | diverges
  deriving DecidableEq, Repr

/-- A computation over a state that may stop at a fault. -/
abbrev Prog (σ α : Type) := StateT σ (Except Fault) α

variable {σ α β : Type}

/-- The run of `p` from `s` reaches no fault and its result satisfies `Q`. -/
def Ends (p : Prog σ α) (s : σ) (Q : α → σ → Prop) : Prop :=
  ∃ a s', p s = .ok (a, s') ∧ Q a s'

/-! ## Straight-line code -/

theorem Ends.mono {p : Prog σ α} {s : σ} {Q R : α → σ → Prop} (h : Ends p s Q)
    (himp : ∀ a s', Q a s' → R a s') : Ends p s R := by
  obtain ⟨a, s', hrun, hQ⟩ := h
  exact ⟨a, s', hrun, himp a s' hQ⟩

/-- A run has one outcome, so a postcondition holds of the outcome at hand. -/
theorem Ends.of_run {p : Prog σ α} {s s' : σ} {a : α} {Q : α → σ → Prop} (h : Ends p s Q)
    (hrun : p s = .ok (a, s')) : Q a s' := by
  obtain ⟨b, t, hrun', hQ⟩ := h
  rw [hrun] at hrun'
  cases hrun'
  exact hQ

theorem ends_of_run {p : Prog σ α} {s s' : σ} {a : α} {Q : α → σ → Prop}
    (hrun : p s = .ok (a, s')) : Ends p s Q ↔ Q a s' :=
  ⟨fun h => h.of_run hrun, fun h => ⟨a, s', hrun, h⟩⟩

@[simp]
theorem ends_pure {a : α} {s : σ} {Q : α → σ → Prop} :
    Ends (pure a : Prog σ α) s Q ↔ Q a s :=
  ends_of_run rfl

@[simp]
theorem ends_bind {p : Prog σ α} {f : α → Prog σ β} {s : σ} {Q : β → σ → Prop} :
    Ends (p >>= f) s Q ↔ Ends p s fun a s' => Ends (f a) s' Q := by
  have hunfold : (p >>= f) s = p s >>= fun r => f r.1 r.2 := rfl
  cases hp : p s with
  | error e =>
      constructor
      · rintro ⟨b, t, hrun, -⟩
        rw [hunfold, hp] at hrun
        cases hrun
      · rintro ⟨a, t, hrun, -⟩
        rw [hp] at hrun
        cases hrun
  | ok r =>
      have hrun : (p >>= f) s = f r.1 r.2 := by rw [hunfold, hp]; rfl
      rw [ends_of_run hp]
      simp only [Ends, hrun]

/-- Execution after a first part whose postcondition is known. -/
theorem Ends.bind {p : Prog σ α} {f : α → Prog σ β} {s : σ} {R : α → σ → Prop}
    {Q : β → σ → Prop} (hp : Ends p s R) (hf : ∀ a s', R a s' → Ends (f a) s' Q) :
    Ends (p >>= f) s Q :=
  ends_bind.mpr (hp.mono hf)

@[simp]
theorem not_ends_throw {e : Fault} {s : σ} {Q : α → σ → Prop} :
    ¬ Ends (throw e : Prog σ α) s Q := by
  rintro ⟨a, s', hrun, -⟩
  cases hrun

/-- A program goes on where its first part has ended. -/
theorem run_bind {p : Prog σ α} {f : α → Prog σ β} {s s' : σ} {a : α} (hrun : p s = .ok (a, s')) :
    (p >>= f) s = f a s' := by
  show (p s >>= fun r => f r.1 r.2) = f a s'
  rw [hrun]
  rfl

/-- The run of `p` from `s` stops at the fault `e`. -/
def Faults (p : Prog σ α) (s : σ) (e : Fault) : Prop := p s = .error e

theorem Faults.not_ends {p : Prog σ α} {s : σ} {e : Fault} (h : Faults p s e)
    {Q : α → σ → Prop} : ¬ Ends p s Q := by
  rintro ⟨a, s', hrun, -⟩
  rw [h] at hrun
  cases hrun

theorem Faults.bind {p : Prog σ α} {s : σ} {e : Fault} (h : Faults p s e) (f : α → Prog σ β) :
    Faults (p >>= f) s e := by
  show (p s >>= fun r => f r.1 r.2) = .error e
  rw [h]
  rfl

theorem faults_bind {p : Prog σ α} {f : α → Prog σ β} {s s' : σ} {a : α} {e : Fault}
    (hrun : p s = .ok (a, s')) : Faults (p >>= f) s e ↔ Faults (f a) s' e := by
  rw [Faults, run_bind hrun, Faults]

/-- `assert(c)`: the run stops when `c` is false. -/
def ensure (c : Prop) [Decidable c] : Prog σ Unit :=
  if c then pure () else throw .assertion

@[simp]
theorem ends_ensure {c : Prop} [Decidable c] {s : σ} {Q : Unit → σ → Prop} :
    Ends (ensure c) s Q ↔ c ∧ Q () s := by
  by_cases hc : c <;> simp [ensure, hc]

/-- Access to the `i`-th member of a C array, which must exist. -/
def readArray (xs : Array α) (i : ℕ) : Prog σ α :=
  match xs[i]? with
  | some x => pure x
  | none => throw .outOfBounds

@[simp]
theorem ends_readArray {xs : Array α} {i : ℕ} {s : σ} {Q : α → σ → Prop} :
    Ends (readArray xs i) s Q ↔ ∃ x, xs[i]? = some x ∧ Q x s := by
  cases hx : xs[i]? <;> simp [readArray, hx]

/-- Assignment to the `i`-th member of a C array, which must exist. -/
def writeArray (xs : Array α) (i : ℕ) (x : α) : Prog σ (Array α) :=
  if i < xs.size then pure (xs.setIfInBounds i x) else throw .outOfBounds

@[simp]
theorem ends_writeArray {xs : Array α} {i : ℕ} {x : α} {s : σ} {Q : Array α → σ → Prop} :
    Ends (writeArray xs i x) s Q ↔ i < xs.size ∧ Q (xs.setIfInBounds i x) s := by
  by_cases hi : i < xs.size <;> simp [writeArray, hi]

/-- A computation that does not look at the state, run inside a program. -/
def embed (x : Except Fault α) : Prog σ α :=
  fun s => x.map fun a => (a, s)

@[simp]
theorem ends_embed {x : Except Fault α} {s : σ} {Q : α → σ → Prop} :
    Ends (embed x) s Q ↔ ∃ a, x = .ok a ∧ Q a s := by
  cases x with
  | error e =>
      constructor
      · rintro ⟨a, s', hrun, -⟩
        cases hrun
      · rintro ⟨a, hrun, -⟩
        cases hrun
  | ok a =>
      have hrun : embed (.ok a) s = .ok (a, s) := rfl
      simp [ends_of_run hrun]

@[simp]
theorem ends_get {s : σ} {Q : σ → σ → Prop} : Ends (get : Prog σ σ) s Q ↔ Q s s :=
  ends_of_run rfl

@[simp]
theorem ends_modify {f : σ → σ} {s : σ} {Q : PUnit → σ → Prop} :
    Ends (modify f : Prog σ PUnit) s Q ↔ Q ⟨⟩ (f s) :=
  ends_of_run rfl

/-! ## Counted loops -/

/-- `n` iterations from counter `i` upwards, carrying a local value. -/
def foldLoop (body : ℕ → β → Prog σ β) : ℕ → ℕ → β → Prog σ β
  | 0, _, acc => pure acc
  | n + 1, i, acc => body i acc >>= foldLoop body n (i + 1)

/-- `for (i = lo; i < hi; ++i)` with one local that the body updates. -/
def foldRange (lo hi : ℕ) (acc : β) (body : ℕ → β → Prog σ β) : Prog σ β :=
  foldLoop body (hi - lo) lo acc

/-- `for (i = lo; i < hi; ++i)` over the state alone. -/
def forRange (lo hi : ℕ) (body : ℕ → Prog σ Unit) : Prog σ Unit :=
  foldRange lo hi () fun i _ => body i

/-- `n` iterations from counter `lo + n - 1` down to `lo`. -/
def downLoop (body : ℕ → Prog σ Unit) (lo : ℕ) : ℕ → Prog σ Unit
  | 0 => pure ()
  | n + 1 => body (lo + n) >>= fun _ => downLoop body lo n

/-- `for (i = hi - 1; i >= lo; --i)` over the state. -/
def forDown (lo hi : ℕ) (body : ℕ → Prog σ Unit) : Prog σ Unit :=
  downLoop body lo (hi - lo)

theorem foldLoop_ends {body : ℕ → β → Prog σ β} {I : ℕ → β → σ → Prop} (n lo : ℕ)
    (hstep : ∀ i acc s, lo ≤ i → i < lo + n → I i acc s → Ends (body i acc) s (I (i + 1)))
    {acc : β} {s : σ} (h0 : I lo acc s) : Ends (foldLoop body n lo acc) s (I (lo + n)) := by
  induction n generalizing lo acc s with
  | zero => simpa [foldLoop] using h0
  | succ n ih =>
      refine (hstep lo acc s le_rfl (by omega) h0).bind fun acc' s' h1 => ?_
      have hrest := ih (lo + 1)
        (fun i acc s hlo hhi => hstep i acc s (by omega) (by omega)) h1
      rwa [show lo + (n + 1) = lo + 1 + n by omega]

/-- Invariant rule for an upward loop with a local. -/
theorem foldRange_ends {lo hi : ℕ} {body : ℕ → β → Prog σ β} (I : ℕ → β → σ → Prop)
    (hle : lo ≤ hi)
    (hstep : ∀ i acc s, lo ≤ i → i < hi → I i acc s → Ends (body i acc) s (I (i + 1)))
    {acc : β} {s : σ} (h0 : I lo acc s) : Ends (foldRange lo hi acc body) s (I hi) := by
  have h := foldLoop_ends (hi - lo) lo
    (fun i acc s hlo hhi => hstep i acc s hlo (by omega)) h0
  rwa [show lo + (hi - lo) = hi by omega] at h

/-- Invariant rule for an upward loop over the state. -/
theorem forRange_ends {lo hi : ℕ} {body : ℕ → Prog σ Unit} (I : ℕ → σ → Prop)
    (hle : lo ≤ hi)
    (hstep : ∀ i s, lo ≤ i → i < hi → I i s → Ends (body i) s fun _ => I (i + 1))
    {s : σ} (h0 : I lo s) : Ends (forRange lo hi body) s fun _ => I hi :=
  foldRange_ends (fun i _ => I i) hle (fun i _ s hlo hhi hI => hstep i s hlo hhi hI) h0

theorem downLoop_ends {body : ℕ → Prog σ Unit} {I : ℕ → σ → Prop} (lo n : ℕ)
    (hstep : ∀ i s, lo ≤ i → i < lo + n → I (i + 1) s → Ends (body i) s fun _ => I i)
    {s : σ} (h0 : I (lo + n) s) : Ends (downLoop body lo n) s fun _ => I lo := by
  induction n generalizing s with
  | zero => simpa [downLoop] using h0
  | succ n ih =>
      refine (hstep (lo + n) s (by omega) (by omega) h0).bind fun _ s' h1 => ?_
      exact ih (fun i s hlo hhi => hstep i s hlo (by omega)) h1

/-- Invariant rule for a downward loop over the state. -/
theorem forDown_ends {lo hi : ℕ} {body : ℕ → Prog σ Unit} (I : ℕ → σ → Prop)
    (hle : lo ≤ hi)
    (hstep : ∀ i s, lo ≤ i → i < hi → I (i + 1) s → Ends (body i) s fun _ => I i)
    {s : σ} (h0 : I hi s) : Ends (forDown lo hi body) s fun _ => I lo := by
  have hhi : lo + (hi - lo) = hi := by omega
  refine downLoop_ends lo (hi - lo) (fun i s hlo hlt => hstep i s hlo (by omega)) ?_
  rwa [hhi]

/-- A loop whose bound is not above its start does nothing. -/
theorem foldRange_of_le {lo hi : ℕ} (h : hi ≤ lo) (acc : β) (body : ℕ → β → Prog σ β) :
    foldRange lo hi acc body = pure acc := by
  simp [foldRange, Nat.sub_eq_zero_of_le h, foldLoop]

theorem forRange_of_le {lo hi : ℕ} (h : hi ≤ lo) (body : ℕ → Prog σ Unit) :
    forRange lo hi body = pure () :=
  foldRange_of_le h () _

theorem forDown_of_le {lo hi : ℕ} (h : hi ≤ lo) (body : ℕ → Prog σ Unit) :
    forDown lo hi body = pure () := by
  rw [forDown, Nat.sub_eq_zero_of_le h]
  rfl

theorem foldLoop_add (body : ℕ → β → Prog σ β) (m n i : ℕ) (acc : β) :
    foldLoop body (m + n) i acc = foldLoop body m i acc >>= foldLoop body n (i + m) := by
  induction m generalizing i acc with
  | zero => simp [foldLoop]
  | succ m ih =>
      rw [show m + 1 + n = m + n + 1 by omega]
      simp only [foldLoop, bind_assoc]
      congr 1
      funext acc'
      rw [ih, show i + 1 + m = i + (m + 1) by omega]

/-- A loop is its iterations below `mid` followed by those from `mid` on. -/
theorem foldRange_split {lo mid hi : ℕ} (hlo : lo ≤ mid) (hhi : mid ≤ hi) (acc : β)
    (body : ℕ → β → Prog σ β) :
    foldRange lo hi acc body =
      foldRange lo mid acc body >>= fun acc' => foldRange mid hi acc' body := by
  have hsum : hi - lo = (mid - lo) + (hi - mid) := by omega
  rw [foldRange, hsum, foldLoop_add, show lo + (mid - lo) = mid by omega]
  rfl

theorem forRange_split {lo mid hi : ℕ} (hlo : lo ≤ mid) (hhi : mid ≤ hi)
    (body : ℕ → Prog σ Unit) :
    forRange lo hi body = forRange lo mid body >>= fun _ => forRange mid hi body :=
  foldRange_split hlo hhi () _

/-- The first iteration of a loop that has one. -/
theorem foldRange_cons {lo hi : ℕ} (h : lo < hi) (acc : β) (body : ℕ → β → Prog σ β) :
    foldRange lo hi acc body =
      body lo acc >>= fun acc' => foldRange (lo + 1) hi acc' body := by
  rw [foldRange, show hi - lo = hi - (lo + 1) + 1 by omega]
  rfl

theorem forRange_cons {lo hi : ℕ} (h : lo < hi) (body : ℕ → Prog σ Unit) :
    forRange lo hi body = body lo >>= fun _ => forRange (lo + 1) hi body :=
  foldRange_cons h () _

/-- A loop whose body stops at a fault in one round does so too if it gets there. -/
theorem foldRange_faults {hi d : ℕ} {body : ℕ → β → Prog σ β} (I : ℕ → β → σ → Prop)
    {acc : β} {s : σ} {e : Fault} (h0 : I 0 acc s)
    (hbody : ∀ i acc s, i < hi → i < d → I i acc s → Ends (body i acc) s (I (i + 1)))
    (hstuck : ∀ acc s, d < hi → I d acc s → Faults (body d acc) s e) (hlt : d < hi) :
    Faults (foldRange 0 hi acc body) s e := by
  obtain ⟨b, t, hrun, hI⟩ := foldRange_ends I (Nat.zero_le d)
    (fun i acc s _ hi' hI => hbody i acc s (lt_trans hi' hlt) hi' hI) h0
  rw [foldRange_split (Nat.zero_le d) (Nat.le_of_lt hlt), faults_bind hrun, foldRange_cons hlt]
  exact (hstuck b t hlt hI).bind _

/-- Such a loop ends if it is left before that round. -/
theorem foldRange_ends_iff (hi : ℕ) {d : ℕ} {body : ℕ → β → Prog σ β}
    (I : ℕ → β → σ → Prop) {acc : β} {s : σ} {e : Fault} (h0 : I 0 acc s)
    (hbody : ∀ i acc s, i < hi → i < d → I i acc s → Ends (body i acc) s (I (i + 1)))
    (hstuck : ∀ acc s, d < hi → I d acc s → Faults (body d acc) s e)
    (Q : β → σ → Prop) (hQ : ∀ acc s, I hi acc s → Q acc s) :
    Ends (foldRange 0 hi acc body) s Q ↔ hi ≤ d := by
  constructor
  · intro h
    by_contra hlt
    exact (foldRange_faults I h0 hbody hstuck (not_le.mp hlt)).not_ends h
  · intro hle
    exact (foldRange_ends I (Nat.zero_le hi)
      (fun i acc s _ hi' hI => hbody i acc s hi' (Nat.lt_of_lt_of_le hi' hle) hI) h0).mono hQ

theorem foldLoop_eq_forM (body : ℕ → Prog σ Unit) (n lo : ℕ) :
    foldLoop (fun i _ => body i) n lo () = forM (List.range' lo n) body := by
  induction n generalizing lo with
  | zero => rfl
  | succ n ih =>
      rw [List.range'_succ, List.forM_cons, foldLoop]
      exact congrArg (body lo >>= ·) (funext fun _ => ih (lo + 1))

/-- A loop from zero goes through the list of the numbers below its bound. -/
theorem forRange_eq_forM (n : ℕ) (body : ℕ → Prog σ Unit) :
    forRange 0 n body = forM (List.range n) body := by
  rw [List.range_eq_range']
  exact foldLoop_eq_forM body n 0

/-- Going through parts that are joined is going through them one by one. -/
theorem forM_flatMap {ι κ : Type} (l : List ι) (f : ι → List κ) (body : κ → Prog σ Unit) :
    forM (l.flatMap f) body = forM l fun i => forM (f i) body := by
  induction l with
  | nil => rfl
  | cons i l ih => rw [List.flatMap_cons, List.forM_append, List.forM_cons, ih]

/-! ## What every run keeps -/

/-- A run of `p` that ends keeps the property `P` of the state. -/
def Keeps (P : σ → Prop) (p : Prog σ α) : Prop := ∀ s r, P s → p s = .ok r → P r.2

theorem keeps_iff {P : σ → Prop} {p : Prog σ α} :
    Keeps P p ↔ ∀ s, P s → ∀ Q, Ends p s Q → Ends p s fun a s' => Q a s' ∧ P s' := by
  constructor
  · rintro hp s hs Q ⟨a, s', hrun, hQ⟩
    exact ⟨a, s', hrun, hQ, hp s _ hs hrun⟩
  · rintro hp s ⟨a, s'⟩ hs hrun
    exact ((hp s hs (fun _ _ => True) ⟨a, s', hrun, trivial⟩).of_run hrun).2

theorem Ends.keeps {P : σ → Prop} {p : Prog σ α} {s : σ} {Q : α → σ → Prop} (h : Ends p s Q)
    (hp : Keeps P p) (hs : P s) : Ends p s fun a s' => Q a s' ∧ P s' :=
  keeps_iff.mp hp s hs Q h

namespace Keeps

variable {P : σ → Prop} {p : Prog σ α} {f : α → Prog σ β}

theorem pure (a : α) : Keeps P (Pure.pure a : Prog σ α) :=
  keeps_iff.mpr fun _ hs _ h => ends_pure.mpr ⟨ends_pure.mp h, hs⟩

theorem throw (e : Fault) : Keeps P (MonadExcept.throw e : Prog σ α) :=
  keeps_iff.mpr fun _ _ _ h => absurd h not_ends_throw

theorem bind (hp : Keeps P p) (hf : ∀ a, Keeps P (f a)) : Keeps P (p >>= f) :=
  keeps_iff.mpr fun _ hs _ h => ends_bind.mpr
    (((ends_bind.mp h).keeps hp hs).mono fun a _ hrest => hrest.1.keeps (hf a) hrest.2)

theorem ite {c : Prop} [Decidable c] {p q : Prog σ α} (hp : Keeps P p) (hq : Keeps P q) :
    Keeps P (if c then p else q) := by
  split_ifs
  · exact hp
  · exact hq

theorem ensure (c : Prop) [Decidable c] : Keeps P (ensure c : Prog σ Unit) :=
  ite (pure ()) (throw _)

theorem readArray (xs : Array α) (i : ℕ) : Keeps P (readArray xs i : Prog σ α) :=
  keeps_iff.mpr fun _ hs _ h => by
    rw [ends_readArray] at h ⊢
    obtain ⟨x, hx, hQ⟩ := h
    exact ⟨x, hx, hQ, hs⟩

theorem embed (x : Except Fault α) : Keeps P (embed x : Prog σ α) :=
  keeps_iff.mpr fun _ hs _ h => by
    rw [ends_embed] at h ⊢
    obtain ⟨a, ha, hQ⟩ := h
    exact ⟨a, ha, hQ, hs⟩

theorem foldLoop {body : ℕ → β → Prog σ β} (n lo : ℕ)
    (hbody : ∀ i acc, lo ≤ i → i < lo + n → Keeps P (body i acc)) (acc : β) :
    Keeps P (foldLoop body n lo acc) := by
  induction n generalizing lo acc with
  | zero => exact pure acc
  | succ n ih =>
      refine bind (hbody lo acc le_rfl (by omega)) fun acc' => ?_
      exact ih (lo + 1) (fun i acc hlo hhi => hbody i acc (by omega) (by omega)) acc'

theorem foldRange {lo hi : ℕ} {body : ℕ → β → Prog σ β} (acc : β)
    (hbody : ∀ i acc, lo ≤ i → i < hi → Keeps P (body i acc)) :
    Keeps P (foldRange lo hi acc body) :=
  foldLoop (hi - lo) lo (fun i acc hlo hhi => hbody i acc hlo (by omega)) acc

/-- What every iteration keeps holds after a loop that was seen to end. -/
theorem forRange {lo hi : ℕ} {body : ℕ → Prog σ Unit}
    (hbody : ∀ i, lo ≤ i → i < hi → Keeps P (body i)) : Keeps P (forRange lo hi body) :=
  foldRange () fun i _ hlo hhi => hbody i hlo hhi

end Keeps

/-- A loop that ends comes by each of its iterations, in a state with the property
that all iterations keep. -/
theorem forRange_reaches {lo hi : ℕ} {body : ℕ → Prog σ Unit} {P : σ → Prop}
    {Q : Unit → σ → Prop} {s : σ} (hrun : Ends (forRange lo hi body) s Q) (hs : P s)
    (hbody : ∀ i, lo ≤ i → i < hi → Keeps P (body i)) {i : ℕ} (hlo : lo ≤ i) (hhi : i < hi) :
    ∃ s', P s' ∧ Ends (body i) s' fun _ _ => True := by
  rw [forRange_split hlo (Nat.le_of_lt hhi), ends_bind] at hrun
  have hkeeps : Keeps P (forRange lo i body) :=
    Keeps.forRange fun j hj hji => hbody j hj (Nat.lt_trans hji hhi)
  obtain ⟨_, s', -, hrest, hs'⟩ := hrun.keeps hkeeps hs
  rw [forRange_cons hhi, ends_bind] at hrest
  exact ⟨s', hs', hrest.mono fun _ _ _ => trivial⟩

/-! ## Loops left early -/

/-- `n` probes from counter `i` upwards, up to the first hit. -/
def findLoop (probe : ℕ → Prog σ (Option β)) : ℕ → ℕ → Prog σ (Option β)
  | 0, _ => pure none
  | n + 1, i => probe i >>= fun hit =>
      match hit with
      | some b => pure (some b)
      | none => findLoop probe n (i + 1)

/-- `for (i = lo; i < hi; ++i)` left by a `goto` at the first hit. -/
def findRange (lo hi : ℕ) (probe : ℕ → Prog σ (Option β)) : Prog σ (Option β) :=
  findLoop probe (hi - lo) lo

/-- `n` iterations from counter `i` upwards; the body breaks with `none`. -/
def breakLoop (body : ℕ → β → Prog σ (Option β)) : ℕ → ℕ → β → Prog σ (ℕ × β)
  | 0, i, acc => pure (i, acc)
  | n + 1, i, acc => body i acc >>= fun next =>
      match next with
      | some acc' => breakLoop body n (i + 1) acc'
      | none => pure (i, acc)

/-- `for (i = lo; i < hi; ++i)` with a `break`; the counter outlives the loop. -/
def breakRange (lo hi : ℕ) (acc : β) (body : ℕ → β → Prog σ (Option β)) : Prog σ (ℕ × β) :=
  breakLoop body (hi - lo) lo acc

/-- A postcondition for a search: one for a hit, one for running out. -/
def onHit (missed : σ → Prop) (found : β → σ → Prop) : Option β → σ → Prop
  | none, s => missed s
  | some b, s => found b s

@[simp]
theorem onHit_none {missed : σ → Prop} {found : β → σ → Prop} {s : σ} :
    onHit missed found none s = missed s := rfl

@[simp]
theorem onHit_some {missed : σ → Prop} {found : β → σ → Prop} {b : β} {s : σ} :
    onHit missed found (some b) s = found b s := rfl

theorem findLoop_ends {probe : ℕ → Prog σ (Option β)} {I : ℕ → σ → Prop}
    {found : β → σ → Prop} (n lo : ℕ)
    (hstep : ∀ i s, lo ≤ i → i < lo + n → I i s →
      Ends (probe i) s (onHit (I (i + 1)) found))
    {s : σ} (h0 : I lo s) : Ends (findLoop probe n lo) s (onHit (I (lo + n)) found) := by
  induction n generalizing lo s with
  | zero => simpa [findLoop] using h0
  | succ n ih =>
      refine (hstep lo s le_rfl (by omega) h0).bind fun hit s' hhit => ?_
      cases hit with
      | some b => simpa using hhit
      | none =>
          have hrest := ih (lo + 1)
            (fun i s hlo hhi => hstep i s (by omega) (by omega)) hhit
          rwa [show lo + (n + 1) = lo + 1 + n by omega]

/-- Invariant rule for a search: `I i` says that nothing was hit before `i`. -/
theorem findRange_ends {lo hi : ℕ} {probe : ℕ → Prog σ (Option β)} (I : ℕ → σ → Prop)
    (found : β → σ → Prop) (hle : lo ≤ hi)
    (hstep : ∀ i s, lo ≤ i → i < hi → I i s → Ends (probe i) s (onHit (I (i + 1)) found))
    {s : σ} (h0 : I lo s) : Ends (findRange lo hi probe) s (onHit (I hi) found) := by
  have h := findLoop_ends (hi - lo) lo
    (fun i s hlo hhi => hstep i s hlo (by omega)) h0
  rwa [show lo + (hi - lo) = hi by omega] at h

theorem breakLoop_ends {body : ℕ → β → Prog σ (Option β)} {I Q : ℕ → β → σ → Prop}
    (n lo : ℕ)
    (hstep : ∀ i acc s, lo ≤ i → i < lo + n → I i acc s →
      Ends (body i acc) s (onHit (Q i acc) (I (i + 1))))
    (hend : ∀ acc s, I (lo + n) acc s → Q (lo + n) acc s)
    {acc : β} {s : σ} (h0 : I lo acc s) :
    Ends (breakLoop body n lo acc) s fun r => Q r.1 r.2 := by
  induction n generalizing lo acc s with
  | zero => simpa [breakLoop] using hend acc s h0
  | succ n ih =>
      refine (hstep lo acc s le_rfl (by omega) h0).bind fun next s' hnext => ?_
      cases next with
      | none => simpa using hnext
      | some acc' =>
          refine ih (lo + 1) (fun i acc s hlo hhi => hstep i acc s (by omega) (by omega))
            ?_ hnext
          rwa [show lo + 1 + n = lo + (n + 1) by omega]

/-- Invariant rule for a loop with a `break`: `Q i` holds where it is left. -/
theorem breakRange_ends {lo hi : ℕ} {body : ℕ → β → Prog σ (Option β)}
    (I Q : ℕ → β → σ → Prop) (hle : lo ≤ hi)
    (hstep : ∀ i acc s, lo ≤ i → i < hi → I i acc s →
      Ends (body i acc) s (onHit (Q i acc) (I (i + 1))))
    (hend : ∀ acc s, I hi acc s → Q hi acc s)
    {acc : β} {s : σ} (h0 : I lo acc s) :
    Ends (breakRange lo hi acc body) s fun r => Q r.1 r.2 := by
  have hhi : lo + (hi - lo) = hi := by omega
  refine breakLoop_ends (I := I) (hi - lo) lo
    (fun i acc s hlo hlt => hstep i acc s hlo (by omega)) ?_ h0
  rwa [hhi]

/-- `while (cond) body` on one local, run for at most `fuel` tests of `cond`. -/
def whileDo (cond : β → Bool) (body : β → Prog σ β) : ℕ → β → Prog σ β
  | 0, _ => throw .diverges
  | fuel + 1, x => if cond x then body x >>= whileDo cond body fuel else pure x

/-- Rule for a `while` loop with a variant: every pass lowers the measure, so a
fuel above it is never what ends the loop. -/
theorem whileDo_ends {cond : β → Bool} {body : β → Prog σ β} (I : ℕ → β → σ → Prop)
    (hstep : ∀ m x s, cond x = true → I m x s →
      Ends (body x) s fun y s' => ∃ m' < m, I m' y s')
    {fuel m : ℕ} {x : β} {s : σ} (hfuel : m < fuel) (h0 : I m x s) :
    Ends (whileDo cond body fuel x) s fun y s' => cond y = false ∧ ∃ m', I m' y s' := by
  induction fuel generalizing m x s with
  | zero => exact absurd hfuel (Nat.not_lt_zero m)
  | succ fuel ih =>
      rw [whileDo]
      split_ifs with hcond
      · apply (hstep m x s hcond h0).bind
        rintro y s' ⟨m', hm', hI⟩
        exact ih (by omega) hI
      · exact ends_pure.mpr ⟨Bool.eq_false_iff.mpr hcond, m, h0⟩

/-- `while (cond(x)) x = next(x);` on locals alone, run for at most `fuel` tests. -/
def whileLoop (cond : β → Bool) (next : β → β) : ℕ → β → Except Fault β
  | 0, _ => .error .diverges
  | fuel + 1, x => if cond x then whileLoop cond next fuel (next x) else .ok x

/-- `do x = next(x); while (cond(x));` on locals alone. -/
def doWhileLoop (cond : β → Bool) (next : β → β) (fuel : ℕ) (x : β) : Except Fault β :=
  whileLoop cond next fuel (next x)

end Imperative
