import BigStep.Evaluation

/-!
# Contexts

A context counts over several evaluations, successful or not: how many rule applications are open
and how many there have been. It learns both from the events of each run.
-/

namespace BigStep

/-- The limit on nested rule applications, the number now open, and the number so far. -/
structure Context where
  limit : Nat
  depth : Nat
  steps : Nat
  deriving DecidableEq, Repr

namespace Context

/-- The context before the first evaluation. -/
def fresh (limit : Nat) : Context := ⟨limit, 0, 0⟩

/-- The context after one event. -/
def observe (c : Context) : Event → Context
  | .enter _ _ => { c with depth := c.depth + 1, steps := c.steps + 1 }
  | .leave => { c with depth := c.depth - 1 }
  | .compute _ _ _ => c
  | .callRec _ _ => c

/-- Evaluates with the room that the open rule applications leave, and counts. -/
def eval (c : Context) (env : Env) (expr : Expr) : Except RuntimeError Derived × Context :=
  let run := Evaluation.evalWith Operator.apply c.limit (c.limit - c.depth) env expr
  (run.outcome, run.events.foldl observe c)

end Context

end BigStep
