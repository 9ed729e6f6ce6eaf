import BigStep.Evaluation.Log
import BigStep.Value.Decode

/-!
# Goals

A goal is what is to be derived: the text of an environment and the text of an expression, which
stand on the two sides of `|-`.

* `Goal.ofSource`: splits a text at its first `|-`.
* `Goal.read`: reads the environment, then the expression.
* `Goal.derive`: reads and evaluates.
* `Goal.log`: what is reported of that.
-/

namespace BigStep

/-- Why a goal has no derivation. -/
inductive Error
  | parse (error : ParseError)
  | decode (error : DecodeError)
  | runtime (error : RuntimeError)
  deriving DecidableEq, Repr

/-- The text of the error. -/
def Error.message : Error → String
  | parse error => error.message
  | decode error => error.message
  | runtime error => error.message

/-- The text of an environment and the text of an expression. -/
structure Goal where
  env : String
  expr : String
  deriving DecidableEq, Repr

namespace Goal

/-- What stands before and behind the first turnstile `|-`. -/
def cutTurnstile? : List Char → Option (List Char × List Char)
  | [] => none
  | '|' :: '-' :: after => some ([], after)
  | c :: cs => (cutTurnstile? cs).map fun (before, after) => (c :: before, after)

/-- The goal that a text states. Without a turnstile the whole text is the expression. Blanks at
the ends of both parts are dropped. -/
def ofSource (source : String) : Goal :=
  match cutTurnstile? source.toList with
  | some (env, expr) => ⟨String.ofList (Text.trim env), String.ofList (Text.trim expr)⟩
  | none => ⟨"", String.ofList (Text.trim source.toList)⟩

/-- Reads the environment, then the expression. -/
def read (goal : Goal) : Except Error (Env × Expr) := do
  let env ← (Env.decode goal.env).mapError .decode
  let expr ← (Expr.parse goal.expr).mapError .parse
  return (env, expr)

/-- The evaluation of the goal, with at most `limit` nested rule applications. -/
def derive (limit : Nat) (goal : Goal) : Except Error Evaluation := do
  let (env, expr) ← goal.read
  (evaluate limit env expr).mapError .runtime

/-- What is reported of deriving the goal. -/
def log (limit : Nat) (goal : Goal) : List LogEntry :=
  .asked goal.env goal.expr limit ::
    match goal.read with
    | .ok (env, expr) => LogEntry.ofRun (Evaluation.run limit env expr)
    | .error _ => []

end Goal

end BigStep
