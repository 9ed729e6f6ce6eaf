import BigStep.Evaluation.Context
import BigStep.Proofs.Evaluation.Parametricity

/-!
# One context for many evaluations

A context can be used again after any evaluation, whatever it ended in: the rule applications that
it opened are all closed, so the next evaluation has as much room as in a fresh context.

* `Run.Settled r`: from every context on, the events of `r` leave as many rule applications open as
  before and count those that it began. One lemma for each way to build a run.
* `settled_evalWith`: evaluations are settled, those that succeed and those that fail.
* `Context.evaluate_eq_fresh`: a whole evaluation is one in a fresh context.
* `Context.evalAll_eq_fresh`: the results and counts of all evaluations in one context.
-/

namespace BigStep

/-- From every context on, the events leave the number of open rule applications as it was, and the
rule applications begun are added to those so far. -/
def Run.Settled {α : Type} (r : Run α) : Prop :=
  ∀ c : Context, r.events.foldl Context.observe c = { c with steps := c.steps + r.steps }

namespace Run.Settled

variable {α β : Type}

theorem of_no_events {r : Run α} (h : r.events = []) : r.Settled := by
  intro c
  simp [steps, h]

theorem pure (a : α) : (pure a : Run α).Settled := of_no_events rfl

theorem fail (e : RuntimeError) : (Run.fail e : Run α).Settled := of_no_events rfl

theorem bind {r : Run α} {f : α → Run β} (hr : r.Settled) (hf : ∀ a, (f a).Settled) :
    (r >>= f).Settled := by
  intro c
  cases h : r.outcome with
  | error e =>
    rw [steps, events_bind_error h]
    exact hr c
  | ok a =>
    rw [steps, events_bind_ok h, List.foldl_append, hr c, hf a, List.countP_append, Nat.add_assoc]
    rfl

/-- What a rule application opens it closes, also if the run inside it fails. -/
theorem within {r : Run α} (hr : r.Settled) (env : Env) (expr : Expr) :
    (Run.within env expr r).Settled := by
  intro c
  have hinside := hr { c with depth := c.depth + 1, steps := c.steps + 1 }
  have hsteps : (Run.within env expr r).steps = r.steps + 1 := by
    rw [steps, events_within, List.cons_append, List.countP_cons_of_pos rfl, List.countP_append]
    rfl
  rw [events_within, List.cons_append, List.foldl_cons, List.foldl_append, hsteps]
  simp only [Context.observe, List.foldl_cons, List.foldl_nil, hinside, Nat.add_sub_cancel]
  rw [Nat.add_assoc, Nat.add_comm 1]

end Run.Settled

namespace Evaluation

/-- Being settled is kept by every way to build a run, whatever it is set beside. -/
def settling (arithmetic : Arithmetic) : RunRelation arithmetic arithmetic where
  Rel r _ := r.Settled
  pure a := .pure a
  fail e _ _ := .fail e
  call _ _ := fun _ => rfl
  compute _ _ _ := fun _ => rfl
  bind hr hf := hr.bind hf
  within h := h.within

/-- Evaluation is settled, whatever it ends in. -/
theorem settled_evalWith (arithmetic : Arithmetic) (limit room : Nat) (env : Env) (expr : Expr) :
    (evalWith arithmetic limit room env expr).Settled :=
  (settling arithmetic).evalWith (.fail _) room env expr

end Evaluation

namespace Context

/-- An evaluation changes nothing in a context but the number of rule applications so far. -/
theorem eval_eq (c : Context) (env : Env) (expr : Expr) :
    c.eval env expr =
      let run := Evaluation.evalWith Operator.apply c.limit (c.limit - c.depth) env expr
      (run.outcome, { c with steps := c.steps + run.steps }) := by
  rw [eval, Evaluation.settled_evalWith]

/-- With no rule application open, an evaluation gives what it gives in a fresh context, and adds
the rule applications that it makes there. -/
theorem eval_of_depth_zero (limit steps : Nat) (env : Env) (expr : Expr) :
    eval ⟨limit, 0, steps⟩ env expr =
      (((fresh limit).eval env expr).1,
        ⟨limit, 0, steps + ((fresh limit).eval env expr).2.steps⟩) := by
  simp only [eval_eq, fresh, Nat.zero_add]

/-- A whole evaluation is one in a fresh context. -/
theorem evaluate_eq_fresh (limit : Nat) (env : Env) (expr : Expr) :
    evaluate limit env expr = ((fresh limit).eval env expr).1.map fun d =>
      ⟨d.value, d.derivation, ((fresh limit).eval env expr).2.steps⟩ := by
  simp only [eval_eq, fresh, Nat.zero_add]
  rfl

/-- Evaluates one goal after the other in one context: each result, with the context that it
leaves. -/
def evalAll : Context → List (Env × Expr) → List (Except RuntimeError Derived × Context)
  | _, [] => []
  | c, (env, expr) :: later =>
    let done := c.eval env expr
    done :: evalAll done.2 later

/-- The number of rule applications that the goals take, each in a fresh context. -/
def freshSteps (limit : Nat) : List (Env × Expr) → Nat
  | [] => 0
  | (env, expr) :: later => ((fresh limit).eval env expr).2.steps + freshSteps limit later

theorem evalAll_of_depth_zero (limit steps : Nat) (goals : List (Env × Expr)) :
    evalAll ⟨limit, 0, steps⟩ goals = goals.mapIdx fun i goal =>
      (((fresh limit).eval goal.1 goal.2).1,
        ⟨limit, 0, steps + freshSteps limit (goals.take (i + 1))⟩) := by
  induction goals generalizing steps with
  | nil => rfl
  | cons goal later ih =>
    simp only [evalAll, eval_of_depth_zero, ih, List.mapIdx_cons, List.take_succ_cons, freshSteps,
      List.take_zero, Nat.add_zero, Nat.add_assoc]

/-- However many goals are evaluated in one context, and whatever they end in, each gives what it
gives in a fresh context. After each of them no rule application is open, and those so far are as
many as that goal and the ones before it take in fresh contexts, failed ones included. -/
theorem evalAll_eq_fresh (limit : Nat) (goals : List (Env × Expr)) :
    evalAll (fresh limit) goals = goals.mapIdx fun i goal =>
      (((fresh limit).eval goal.1 goal.2).1,
        ⟨limit, 0, freshSteps limit (goals.take (i + 1))⟩) := by
  rw [fresh, evalAll_of_depth_zero]
  simp only [Nat.zero_add, fresh]

end Context

end BigStep
