import BigStep.Derivation
import BigStep.Evaluation.Run
import BigStep.Integer

/-!
# Evaluation

Big-step evaluation that builds its own derivation.

* `Operator.exact`: what an operator gives on two integers, without a bound.
* `Operator.apply`: the same, refused if the result is out of range.
* `step`: one rule application, given the evaluation `eval` of the premises. Premises are evaluated
  in the order in which the rule lists them. Both operands of an operator are evaluated before
  either is found not to be an integer; what is applied is found not to be a closure before its
  argument is evaluated.
* `evalWith`: evaluation to a limit on the nesting of rule applications. The limit is what the
  recursion is on, so evaluation always ends.
* `evaluate`: the value, the derivation and the number of rule applications.

`evalWith` takes the arithmetic as a parameter: with `Operator.apply` it is the evaluation of the
language, with one that never refuses a result it is evaluation over unbounded integers.
-/

namespace BigStep

namespace Operator

/-- The exact result of an operation on integers. -/
def exact : Operator → Int → Int → Value
  | add, m, n => .int (m + n)
  | sub, m, n => .int (m - n)
  | mul, m, n => .int (m * n)
  | less, m, n => .bool (m < n)

/-- The result of an operation on integers, if it is in range. -/
def apply (op : Operator) (m n : Int) : Except RuntimeError Value :=
  match op.exact m n with
  | .int r => if Integer.InRange r then .ok (.int r) else .error (.overflow m op n)
  | result => .ok result

end Operator

/-- What the operators give on integers, or why they give nothing. -/
abbrev Arithmetic : Type := Operator → Int → Int → Except RuntimeError Value

/-- A value and the derivation of it. -/
structure Derived where
  value : Value
  derivation : Derivation

namespace Evaluation

/-- The limit on the nesting of rule applications where none is given. -/
def defaultLimit : Nat := 128

/-- The conclusion `env |- expr evalto value` by a rule from its premises. -/
def conclude (env : Env) (expr : Expr) (rule : Rule) (premises : List Derivation) (value : Value) :
    Derived :=
  ⟨value, ⟨.evalTo env expr value, rule, premises⟩⟩

/-- The integer that an operand has to be. -/
def integer (value : Value) : Run Int :=
  match value with
  | .int n => pure n
  | _ => .fail (.expectedInteger value)

/-- Carries out an operation on two integers. -/
def compute (arithmetic : Arithmetic) (op : Operator) (m n : Int) : Run Value :=
  ⟨.event (.compute op m n), arithmetic op m n⟩

/-- The leaf for an operation on two integers. -/
def primitiveLeaf (op : Operator) (m n : Int) (result : Value) : Derivation :=
  ⟨.primitive op m n result, .primitive op, []⟩

/-- The environment in which the body of a closure is evaluated: the captured one, the function
itself under its name if it is recursive, and the argument. -/
def callEnv (captured : Env) (code : Code) (argument : Value) : Env :=
  match code.name? with
  | none => captured.extend code.param argument
  | some name => (captured.extend name (.closure captured code)).extend code.param argument

/-- The rule for calling a function. -/
def callRule (code : Code) : Rule :=
  match code.name? with
  | none => .app
  | some _ => .appRec

/-- Reports the call of a recursive function. -/
def reportCall (code : Code) (argument : Value) : Run Unit :=
  match code.name? with
  | none => pure ()
  | some name => .emit (.callRec name argument)

/-- One rule application. -/
def step (arithmetic : Arithmetic) (eval : Env → Expr → Run Derived) (env : Env) (expr : Expr) :
    Run Derived :=
  match expr with
  | .int n => pure (conclude env expr .int [] (.int n))
  | .bool b => pure (conclude env expr .bool [] (.bool b))
  | .var name =>
    match env with
    | .empty => .fail (.unboundVariable name)
    | .extend rest bound value =>
      if bound = name then pure (conclude env expr .var1 [] value)
      else do
        let older ← eval rest expr
        pure (conclude env expr .var2 [older.derivation] older.value)
  | .binary op left right => do
    let l ← eval env left
    let r ← eval env right
    let m ← integer l.value
    let n ← integer r.value
    let result ← compute arithmetic op m n
    let premises := [l.derivation, r.derivation, primitiveLeaf op m n result]
    pure (conclude env expr (.operation op) premises result)
  | .cond condition thenBranch elseBranch => do
    let c ← eval env condition
    match c.value with
    | .bool true =>
      let t ← eval env thenBranch
      pure (conclude env expr .condTrue [c.derivation, t.derivation] t.value)
    | .bool false =>
      let e ← eval env elseBranch
      pure (conclude env expr .condFalse [c.derivation, e.derivation] e.value)
    | value => .fail (.expectedBoolean value)
  | .letIn name value body => do
    let v ← eval env value
    let b ← eval (env.extend name v.value) body
    pure (conclude env expr .letIn [v.derivation, b.derivation] b.value)
  | .letRec name param functionBody body => do
    let closure := Value.closure env ⟨some name, param, functionBody⟩
    let b ← eval (env.extend name closure) body
    pure (conclude env expr .letRec [b.derivation] b.value)
  | .func param body => pure (conclude env expr .func [] (.closure env ⟨none, param, body⟩))
  | .app function argument => do
    let f ← eval env function
    match f.value with
    | .closure captured code =>
      let a ← eval env argument
      reportCall code a.value
      let b ← eval (callEnv captured code a.value) code.body
      pure (conclude env expr (callRule code) [f.derivation, a.derivation, b.derivation] b.value)
    | value => .fail (.notAClosure value)

/-- Evaluation with `room` nested rule applications left of `limit`. -/
def evalWith (arithmetic : Arithmetic) (limit : Nat) : Nat → Env → Expr → Run Derived
  | 0, _, _ => .fail (.recursionLimit limit)
  | room + 1, env, expr =>
    .within env expr (step arithmetic (evalWith arithmetic limit room) env expr)

/-- The run of an expression under an environment, with at most `limit` nested rule
applications. -/
def run (limit : Nat) (env : Env) (expr : Expr) : Run Derived :=
  evalWith Operator.apply limit limit env expr

end Evaluation

/-- The result of an evaluation: the value, its derivation, and the number of rule applications
that it took. -/
structure Evaluation where
  value : Value
  derivation : Derivation
  steps : Nat

/-- Evaluates an expression under an environment, with at most `limit` nested rule applications. -/
def evaluate (limit : Nat) (env : Env) (expr : Expr) : Except RuntimeError Evaluation :=
  let run := Evaluation.run limit env expr
  run.outcome.map fun d => ⟨d.value, d.derivation, run.steps⟩

end BigStep
