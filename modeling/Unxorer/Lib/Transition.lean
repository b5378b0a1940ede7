import Mathlib

/-!
# Runs of a labelled transition system

A step relation with labels and a restriction on which steps a run may take. Invariants
are shown step by step and hold along every run.

## Main definitions

* `Transition.Run` — finitely many allowed steps
* `Transition.performAll` — steps that are functions of their labels, one after the other
* `Transition.Trace` — a run with the steps it consists of
* `Transition.Trace.Along` — all steps of a trace meet a condition
* `Transition.Trace.performTrace` — a trace of steps that are functions of their labels

## Main results

* `Transition.Run.invariant` — what every allowed step preserves holds after a run
* `Transition.run_of_performAll` — performed steps are a run
* `Transition.Trace.invariant` — invariants that depend on what has happened before
* `Transition.Trace.eq_or_exists_last_change` — the step by which an observation has changed last
-/

set_option autoImplicit false

namespace Transition

variable {σ ε : Type*}

/-- Finitely many steps, each with a label that is allowed where it is taken. -/
def Run (step : ε → σ → σ → Prop) (allowed : σ → ε → Prop) : σ → σ → Prop :=
  Relation.ReflTransGen fun s t => ∃ e, allowed s e ∧ step e s t

namespace Run

variable {step : ε → σ → σ → Prop} {allowed : σ → ε → Prop} {s t u : σ}

theorem refl : Run step allowed s s := Relation.ReflTransGen.refl

theorem tail {e : ε} (run : Run step allowed s t) (ok : allowed t e) (next : step e t u) :
    Run step allowed s u :=
  Relation.ReflTransGen.tail run ⟨e, ok, next⟩

/-- A property that every allowed step preserves holds along a run. -/
theorem invariant {P : σ → Prop} (run : Run step allowed s t) (initial : P s)
    (preserved : ∀ e a b, P a → allowed a e → step e a b → P b) : P t := by
  induction run with
  | refl => exact initial
  | tail _ last ih =>
    obtain ⟨e, ok, next⟩ := last
    exact preserved e _ _ ih ok next

end Run

section Perform

variable {allowed : σ → ε → Prop} [∀ s e, Decidable (allowed s e)] {perform : ε → σ → Option σ}

/-- The steps with the given labels, as long as they are allowed and possible. -/
def performAll (allowed : σ → ε → Prop) [∀ s e, Decidable (allowed s e)]
    (perform : ε → σ → Option σ) (s : σ) : List ε → Option σ
  | [] => some s
  | e :: es =>
    if allowed s e then (perform e s).bind fun t => performAll allowed perform t es else none

theorem run_of_performAll {step : ε → σ → σ → Prop}
    (sound : ∀ e s t, perform e s = some t → step e s t) {es : List ε} {s t : σ}
    (performed : performAll allowed perform s es = some t) : Run step allowed s t := by
  induction es generalizing s with
  | nil =>
    cases performed
    exact .refl
  | cons e es ih =>
    obtain ⟨ok, rest⟩ := Option.ite_none_right_eq_some.mp performed
    obtain ⟨u, first, rest⟩ := Option.bind_eq_some_iff.mp rest
    exact Relation.ReflTransGen.head ⟨e, ok, sound e s u first⟩ (ih rest)

end Perform

/-! ### Traces -/

/-- Finitely many steps, with the state before each of them and its label, latest first. -/
inductive Trace (step : ε → σ → σ → Prop) (s : σ) : List (σ × ε) → σ → Prop
  | nil : Trace step s [] s
  | snoc {past : List (σ × ε)} {t u : σ} {e : ε} (before : Trace step s past t)
      (next : step e t u) : Trace step s ((t, e) :: past) u

namespace Trace

variable {step : ε → σ → σ → Prop} {s t u : σ} {past : List (σ × ε)}

/-- A property of past and present that every step preserves holds along a trace. -/
theorem invariant {P : List (σ × ε) → σ → Prop} (trace : Trace step s past t) (initial : P [] s)
    (preserved : ∀ past t e u, P past t → step e t u → P ((t, e) :: past) u) : P past t := by
  induction trace with
  | nil => exact initial
  | snoc _ next ih => exact preserved _ _ _ _ ih next

theorem run (trace : Trace step s past t) : Run step (fun _ _ => True) s t := by
  induction trace with
  | nil => exact .refl
  | snoc _ next ih => exact ih.tail trivial next

/-- A state in which a step was taken has a trace of its own. -/
theorem exists_of_mem {e : ε} (trace : Trace step s past t) (member : (u, e) ∈ past) :
    ∃ earlier, Trace step s earlier u := by
  induction trace with
  | nil => exact absurd member List.not_mem_nil
  | snoc before next ih =>
    rcases List.mem_cons.mp member with same | old
    · cases same
      exact ⟨_, before⟩
    · exact ih old

/-- What was the past of an earlier step has led to the state before it. -/
theorem of_append {e : ε} {later earlier : List (σ × ε)}
    (trace : Trace step s (later ++ (u, e) :: earlier) t) : Trace step s earlier u := by
  induction later generalizing t with
  | nil =>
    cases trace with
    | snoc before next => exact before
  | cons last later ih =>
    cases trace with
    | snoc before next => exact ih before

/-- A trace goes on where another has ended. -/
theorem append {past' : List (σ × ε)} (first : Trace step s past t)
    (second : Trace step t past' u) : Trace step s (past' ++ past) u := by
  induction second with
  | nil => exact first
  | snoc _ next ih => exact ih.snoc next

/-- What is observed has always been what is observed of the first state, or there is a last
step by which it has changed. -/
theorem eq_or_exists_last_change {β : Type*} (obs : σ → β) (trace : Trace step s past t) :
    (obs t = obs s ∧ ∀ p ∈ past, obs p.1 = obs s) ∨
      ∃ later u e earlier v, past = later ++ (u, e) :: earlier ∧ step e u v ∧
      obs v ≠ obs u ∧ obs v = obs t ∧ ∀ p ∈ later, obs p.1 = obs t := by
  induction trace with
  | nil => exact .inl ⟨rfl, fun p member => absurd member List.not_mem_nil⟩
  | @snoc past u t e before next ih =>
    by_cases same : obs t = obs u
    · rcases ih with ⟨first, all⟩ | ⟨later, u', e', earlier, v, rfl, step', change, value, since⟩
      · refine .inl ⟨same.trans first, fun p member => ?_⟩
        rcases List.mem_cons.mp member with rfl | old
        · exact first
        · exact all p old
      · refine .inr ⟨(u, e) :: later, u', e', earlier, v, rfl, step', change,
          value.trans same.symm, fun p member => ?_⟩
        rcases List.mem_cons.mp member with rfl | old
        · exact same.symm
        · exact (since p old).trans same.symm
    · exact .inr ⟨[], u, e, past, t, rfl, next, same, rfl,
        fun p member => absurd member List.not_mem_nil⟩

/-- Every step of a past meets a condition, which may depend on the steps before it. -/
def Along (Q : List (σ × ε) → σ → ε → Prop) : List (σ × ε) → Prop
  | [] => True
  | (t, e) :: past => Q past t e ∧ Along Q past

instance Along.decidable (Q : List (σ × ε) → σ → ε → Prop) [∀ past t e, Decidable (Q past t e)] :
    ∀ past, Decidable (Along Q past)
  | [] => isTrue trivial
  | (t, e) :: past =>
    have := Along.decidable Q past
    inferInstanceAs (Decidable (Q past t e ∧ Along Q past))

theorem Along.and {Q Q' : List (σ × ε) → σ → ε → Prop} (first : Along Q past)
    (second : Along Q' past) :
    Along (fun past t e => Q past t e ∧ Q' past t e) past := by
  induction past with
  | nil => trivial
  | cons step past ih =>
    obtain ⟨t, e⟩ := step
    exact ⟨⟨first.1, second.1⟩, ih first.2 second.2⟩

/-- What every step with a condition preserves holds along a trace of such steps. -/
theorem invariant_of_along {P : List (σ × ε) → σ → Prop} {Q : List (σ × ε) → σ → ε → Prop}
    (trace : Trace step s past t) (along : Along Q past) (initial : P [] s)
    (preserved : ∀ past t e u, P past t → Q past t e → step e t u → P ((t, e) :: past) u) :
    P past t := by
  induction trace with
  | nil => exact initial
  | snoc _ next ih => exact preserved _ _ _ _ (ih along.2) along.1 next

/-- The steps with the given labels behind a past, as long as they are possible. -/
def performTrace (perform : ε → σ → Option σ) (past : List (σ × ε)) (s : σ) :
    List ε → Option (List (σ × ε) × σ)
  | [] => some (past, s)
  | e :: es => (perform e s).bind fun t => performTrace perform ((s, e) :: past) t es

theorem of_performTrace {perform : ε → σ → Option σ}
    (sound : ∀ e s t, perform e s = some t → step e s t) {es : List ε} {past' : List (σ × ε)}
    (before : Trace step s past t)
    (performed : performTrace perform past t es = some (past', u)) : Trace step s past' u := by
  induction es generalizing past t with
  | nil =>
    cases performed
    exact before
  | cons e es ih =>
    obtain ⟨v, first, rest⟩ := Option.bind_eq_some_iff.mp performed
    exact ih (before.snoc (sound e t v first)) rest

/-- The past of performed steps has their labels. -/
theorem labels_of_performTrace {perform : ε → σ → Option σ} {es : List ε}
    {past past' : List (σ × ε)} (performed : performTrace perform past t es = some (past', u)) :
    past'.map Prod.snd = es.reverse ++ past.map Prod.snd := by
  induction es generalizing past t with
  | nil =>
    cases performed
    rfl
  | cons e es ih =>
    obtain ⟨v, -, rest⟩ := Option.bind_eq_some_iff.mp performed
    rw [ih rest, List.reverse_cons, List.append_assoc]
    rfl

end Trace

end Transition
