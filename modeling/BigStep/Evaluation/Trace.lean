import BigStep.Value

/-!
# Traces

What happens during an evaluation, in order.

* `Event`: a rule application begins or ends, an operation on two integers is carried out, or a
  recursive function is called.
* `Trace`: events joined in constant time. An evaluation joins traces at every premise, and a list
  would be copied each time.
* `Trace.toList`: the events in order; every statement about traces is about this list.
-/

namespace BigStep

/-- What happens during an evaluation. -/
inductive Event
  | enter (env : Env) (expr : Expr)
  | leave
  | compute (op : Operator) (left right : Int)
  | callRec (name : String) (argument : Value)
  deriving DecidableEq, Repr

/-- A rule application begins. -/
def Event.isEnter : Event → Bool
  | enter _ _ => true
  | _ => false

/-- A sequence of events. -/
inductive Trace
  | nil
  | event (event : Event)
  | append (before after : Trace)
  deriving DecidableEq, Repr

namespace Trace

instance : Append Trace := ⟨append⟩

/-- The events in order, with more events behind them. -/
def toListAppend : Trace → List Event → List Event
  | nil, later => later
  | event e, later => e :: later
  | append before after, later => before.toListAppend (after.toListAppend later)

/-- The events in order. -/
def toList (t : Trace) : List Event := t.toListAppend []

theorem toListAppend_eq (t : Trace) (later : List Event) :
    t.toListAppend later = t.toList ++ later := by
  induction t generalizing later with
  | nil => rfl
  | event e => rfl
  | append before after hb ha =>
    rw [toList, toListAppend, toListAppend, ha, hb, ha [], hb]
    simp

@[simp] theorem toList_nil : toList nil = [] := rfl

@[simp] theorem toList_event (e : Event) : toList (event e) = [e] := rfl

@[simp] theorem toList_append (s t : Trace) : (s ++ t).toList = s.toList ++ t.toList :=
  toListAppend_eq s t.toList

end Trace

end BigStep
