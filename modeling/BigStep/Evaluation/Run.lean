import BigStep.Evaluation.Trace
import BigStep.RuntimeError

/-!
# Runs

A run is what an evaluation does, step by step, and what it ends in.

* `Run α`: the trace, and a result or an error. Events before an error are kept.
* `Run.within`: a run inside one rule application, which ends even if the run fails.
* `Run.steps`: the number of rule applications that were begun.
-/

namespace BigStep

/-- The events of a computation and its outcome. -/
structure Run (α : Type) where
  trace : Trace
  outcome : Except RuntimeError α

namespace Run

/-- A result without an event. -/
protected def pure {α : Type} (a : α) : Run α := ⟨.nil, .ok a⟩

/-- One run after the other; an error ends both. -/
protected def bind {α β : Type} (r : Run α) (f : α → Run β) : Run β :=
  match r.outcome with
  | .error e => ⟨r.trace, .error e⟩
  | .ok a =>
    let s := f a
    ⟨r.trace ++ s.trace, s.outcome⟩

instance : Monad Run where
  pure := Run.pure
  bind := Run.bind

/-- The run that ends in an error at once. -/
def fail {α : Type} (e : RuntimeError) : Run α := ⟨.nil, .error e⟩

/-- The run of one event. -/
def emit (event : Event) : Run Unit := ⟨.event event, .ok ()⟩

/-- A run inside the rule application for `env |- expr`. -/
def within {α : Type} (env : Env) (expr : Expr) (r : Run α) : Run α :=
  ⟨.event (.enter env expr) ++ r.trace ++ .event .leave, r.outcome⟩

/-- The events in order. -/
def events {α : Type} (r : Run α) : List Event := r.trace.toList

/-- The number of rule applications begun. -/
def steps {α : Type} (r : Run α) : Nat := r.events.countP Event.isEnter

@[simp] theorem events_pure {α : Type} (a : α) : (pure a : Run α).events = [] := rfl

@[simp] theorem events_fail {α : Type} (e : RuntimeError) : (fail e : Run α).events = [] := rfl

@[simp] theorem events_within {α : Type} (env : Env) (expr : Expr) (r : Run α) :
    (within env expr r).events = .enter env expr :: r.events ++ [.leave] := by
  simp [within, events]

/-- A run that succeeds is followed by the events of the next one. -/
theorem events_bind_ok {α β : Type} {r : Run α} {a : α} (h : r.outcome = .ok a) (f : α → Run β) :
    (r >>= f).events = r.events ++ (f a).events := by
  simp [bind, Run.bind, h, events]

/-- A run that fails is followed by nothing. -/
theorem events_bind_error {α β : Type} {r : Run α} {e : RuntimeError} (h : r.outcome = .error e)
    (f : α → Run β) : (r >>= f).events = r.events := by
  simp [bind, Run.bind, h, events]

@[simp] theorem outcome_pure {α : Type} (a : α) : (pure a : Run α).outcome = .ok a := rfl

@[simp] theorem outcome_fail {α : Type} (e : RuntimeError) :
    (fail e : Run α).outcome = .error e := rfl

@[simp] theorem outcome_within {α : Type} (env : Env) (expr : Expr) (r : Run α) :
    (within env expr r).outcome = r.outcome := rfl

/-- Two runs in a row succeed just if both do. -/
@[simp] theorem outcome_bind_eq_ok {α β : Type} {r : Run α} {f : α → Run β} {b : β} :
    (r >>= f).outcome = .ok b ↔ ∃ a, r.outcome = .ok a ∧ (f a).outcome = .ok b := by
  cases h : r.outcome <;> simp [bind, Run.bind, h]

end Run

end BigStep
