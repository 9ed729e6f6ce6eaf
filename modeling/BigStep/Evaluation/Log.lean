import BigStep.Evaluation

/-!
# Log

What is reported of an evaluation while it runs: what is asked, each rule application with its
depth, each call of a recursive function, and the value in the end.
-/

namespace BigStep

/-- An entry of the log. -/
inductive LogEntry
  | asked (env expr : String) (limit : Nat)
  | applied (depth : Nat) (env : Env) (expr : Expr)
  | called (name : String) (argument : Value)
  | finished (value : Value) (steps : Nat)
  deriving DecidableEq, Repr

namespace LogEntry

/-- The text of an entry. A rule application is indented by two spaces for each one around it. -/
def text : LogEntry → String
  | asked env expr limit =>
    "deriving '" ++ env ++ " |- " ++ expr ++ "' with depth limit " ++ limit.repr
  | applied depth env expr => Text.spaces (2 * (depth - 1)) ++ env.text ++ " |- " ++ expr.text
  | called name argument => "applying recursive closure " ++ name ++ " to " ++ argument.text
  | finished value steps => "evaluated to " ++ value.text ++ " in " ++ steps.repr ++ " steps"

/-- The entries for a list of events that begins inside `depth` rule applications. -/
def ofEvents : Nat → List Event → List LogEntry
  | _, [] => []
  | depth, .enter env expr :: later =>
    applied (depth + 1) env expr :: ofEvents (depth + 1) later
  | depth, .leave :: later => ofEvents (depth - 1) later
  | depth, .compute _ _ _ :: later => ofEvents depth later
  | depth, .callRec name argument :: later => called name argument :: ofEvents depth later

/-- The entries for a run: its events, and the value if there is one. -/
def ofRun (run : Run Derived) : List LogEntry :=
  ofEvents 0 run.events ++
    match run.outcome with
    | .ok d => [finished d.value run.steps]
    | .error _ => []

end LogEntry

end BigStep
