import Mathlib.Tactic.Common

/-!
# State machines whose steps may not return

A machine takes a state and an action to a result, in which the next state is found, or does not
return.  What holds of each step of a run is shown from what one step does, by an invariant.
-/

structure Machine (S A R E : Type) where
  step : S → A → Except E R
  next : R → S

namespace Machine

variable {S A R E : Type} (m : Machine S A R E)

/-- One action after another, as long as they return. -/
def run : S → List A → Except E S
  | s, [] => .ok s
  | s, a :: actions => do
    let r ← m.step s a
    run (m.next r) actions

/-- Something holds of each of the actions, as long as they return. -/
def EachStep (Q : S → A → R → Prop) : S → List A → Prop
  | _, [] => True
  | s, a :: actions => ∀ r, m.step s a = .ok r → Q s a r ∧ EachStep Q (m.next r) actions

/-- Something holds of each of the actions and the state it is taken in. -/
def EachCall (P : S → A → Prop) : S → List A → Prop
  | _, [] => True
  | s, a :: actions => P s a ∧ ∀ r, m.step s a = .ok r → EachCall P (m.next r) actions

variable {m}

theorem EachCall.cons_of_ok {P : S → A → Prop} {s : S} {a : A} {actions : List A} {r : R}
    (hr : m.step s a = .ok r) (hP : P s a) (h : m.EachCall P (m.next r) actions) :
    m.EachCall P s (a :: actions) := by
  refine ⟨hP, fun r' hr' => ?_⟩
  obtain rfl := Except.ok.inj (hr.symm.trans hr')
  exact h

theorem EachCall.and_iff {P Q : S → A → Prop} : ∀ {actions : List A} {s : S},
    m.EachCall (fun s a => P s a ∧ Q s a) s actions
      ↔ m.EachCall P s actions ∧ m.EachCall Q s actions
  | [], _ => (and_self_iff ..).symm
  | a :: actions, s => by
    unfold EachCall
    constructor
    · rintro ⟨⟨hP, hQ⟩, h⟩
      exact ⟨⟨hP, fun r hr => (and_iff.1 (h r hr)).1⟩, hQ, fun r hr => (and_iff.1 (h r hr)).2⟩
    · rintro ⟨⟨hP, hPs⟩, hQ, hQs⟩
      exact ⟨⟨hP, hQ⟩, fun r hr => and_iff.2 ⟨hPs r hr, hQs r hr⟩⟩

/-- Two properties of calls that agree wherever an invariant holds, which the one of them keeps. -/
theorem EachCall.congr {P Q : S → A → Prop} {I : S → Prop} : ∀ {actions : List A} {s : S},
    (∀ {s a}, a ∈ actions → I s → (P s a ↔ Q s a)) →
    (∀ {s a r}, a ∈ actions → I s → P s a → m.step s a = .ok r → I (m.next r)) → I s →
    (m.EachCall P s actions ↔ m.EachCall Q s actions)
  | [], _, _, _, _ => Iff.rfl
  | a :: actions, s, hiff, hnext, hI => by
    have hrest : P s a → ∀ r, m.step s a = .ok r →
        (m.EachCall P (m.next r) actions ↔ m.EachCall Q (m.next r) actions) := fun hP r hr =>
      congr (fun ha => hiff (List.mem_cons_of_mem _ ha))
        (fun ha => hnext (List.mem_cons_of_mem _ ha)) (hnext (List.mem_cons_self ..) hI hP hr)
    have ha := hiff (List.mem_cons_self ..) hI
    constructor
    · rintro ⟨hP, h⟩
      exact ⟨ha.1 hP, fun r hr => (hrest hP r hr).1 (h r hr)⟩
    · rintro ⟨hQ, h⟩
      exact ⟨ha.2 hQ, fun r hr => (hrest (ha.2 hQ) r hr).2 (h r hr)⟩

/-- What an invariant and one property of the steps give for another property of the steps. -/
theorem EachStep.of_invariant {P Q : S → A → R → Prop} {I : S → Prop}
    (hstep : ∀ {s a r}, I s → P s a r → m.step s a = .ok r → I (m.next r) ∧ Q s a r) :
    ∀ {actions : List A} {s : S}, I s → m.EachStep P s actions → m.EachStep Q s actions
  | [], _, _, _ => trivial
  | a :: actions, s, hI, hP => fun r hr => by
    obtain ⟨hp, hP⟩ := hP r hr
    obtain ⟨hI', hq⟩ := hstep hI hp hr
    exact ⟨hq, of_invariant hstep hI' hP⟩

/-- What an invariant and a property of the calls give for a property of the steps. -/
theorem EachCall.eachStep {P : S → A → Prop} {Q : S → A → R → Prop} {I : S → Prop}
    (hstep : ∀ {s a r}, I s → P s a → m.step s a = .ok r → I (m.next r) ∧ Q s a r) :
    ∀ {actions : List A} {s : S}, I s → m.EachCall P s actions → m.EachStep Q s actions
  | [], _, _, _ => trivial
  | a :: actions, s, hI, hP => fun r hr => by
    obtain ⟨hp, hP⟩ := hP
    obtain ⟨hI', hq⟩ := hstep hI hp hr
    exact ⟨hq, eachStep hstep hI' (hP r hr)⟩

end Machine

namespace Except

variable {E A B : Type}

@[simp] theorem ok_bind (a : A) (f : A → Except E B) : (Except.ok a >>= f) = f a := rfl

@[simp] theorem error_bind (e : E) (f : A → Except E B) : (Except.error e >>= f) = .error e := rfl

@[simp] theorem pure_eq (a : A) : (pure a : Except E A) = .ok a := rfl

/-- A sequence returns when both halves do. -/
theorem bind_eq_ok {x : Except E A} {f : A → Except E B} {b : B} :
    (x >>= f) = .ok b ↔ ∃ a, x = .ok a ∧ f a = .ok b := by
  cases x with
  | error e => simp
  | ok a => simp

/-- The computation does not end in an error of the given kind. -/
def Avoids (P : E → Prop) (x : Except E A) : Prop := ∀ e, x = .error e → ¬ P e

section Avoids

variable {P : E → Prop} {x : Except E A} {f : A → Except E B}

@[simp] theorem avoids_ok (a : A) : Avoids P (.ok a) := nofun

@[simp] theorem avoids_error {e : E} : Avoids P (.error e : Except E A) ↔ ¬ P e := by
  simp [Avoids]

@[simp] theorem avoids_bind :
    Avoids P (x >>= f) ↔ Avoids P x ∧ ∀ a, x = .ok a → Avoids P (f a) := by
  cases x with
  | error e => simp
  | ok a => simp

@[simp] theorem avoids_ite {p : Prop} [Decidable p] {y : Except E A} :
    Avoids P (if p then x else y) ↔ (p → Avoids P x) ∧ (¬ p → Avoids P y) := by
  split_ifs with h
  · simp [h]
  · simp [h]

end Avoids

end Except
