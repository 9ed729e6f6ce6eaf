import BigStep.Goal

/-!
# Sessions

A session evaluates one expression after the other and can bind each value to a name for the
expressions that follow. A step that fails changes nothing.

* `Session.stepText`: the state is the text of an environment, read anew at each step.
* `Session.stepEnv`: the state is the environment itself.
-/

namespace BigStep.Session

/-- One step: an expression, the name for its value if it gets one, and a limit. -/
structure Step where
  expr : String
  bind? : Option String
  limit : Nat
  deriving DecidableEq, Repr

/-- One step on the text of an environment. If the value is bound, the text is replaced by that of
the extended environment. -/
def stepText (env : String) (step : Step) : Except Error Evaluation × String :=
  let result := Goal.derive step.limit ⟨env, step.expr⟩
  match result, step.bind?, Env.decode env with
  | .ok evaluation, some name, .ok decoded =>
    (result, (decoded.extend name evaluation.value).text)
  | _, _, _ => (result, env)

/-- Evaluates the text of an expression under an environment. -/
def evaluateIn (limit : Nat) (env : Env) (source : String) : Except Error Evaluation := do
  let expr ← (Expr.parse source).mapError .parse
  (evaluate limit env expr).mapError .runtime

/-- One step on an environment. -/
def stepEnv (env : Env) (step : Step) : Except Error Evaluation × Env :=
  let result := evaluateIn step.limit env step.expr
  match result, step.bind? with
  | .ok evaluation, some name => (result, env.extend name evaluation.value)
  | _, _ => (result, env)

/-- The result of each step, with the state that it leaves for the next. -/
def run {σ α : Type} (step : σ → Step → α × σ) : σ → List Step → List (α × σ)
  | _, [] => []
  | state, s :: later =>
    let done := step state s
    done :: run step done.2 later

end BigStep.Session
