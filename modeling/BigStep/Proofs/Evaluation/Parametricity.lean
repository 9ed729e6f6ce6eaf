import BigStep.Evaluation

/-!
# Runs side by side

Evaluation puts its runs together from a few parts, and looks at nothing of a run but its result. So
whatever relates the parts of two evaluations, and is kept by putting them together, relates the
whole evaluations.

* `RunRelation`: a relation between runs with a clause for each part and each way to put parts
  together. The two sides may compute with different arithmetic.
* `RunRelation.step`: it relates two rule applications if it relates their premises. The ways to
  evaluate are looked at one by one here, and not where a relation is put to use.
* `RunRelation.evalWith`: by induction on the room, it relates two evaluations under one limit.
-/

namespace BigStep

/-- A relation between runs that is kept by every way in which evaluation builds a run, with one
arithmetic on the left and another on the right. The errors of the arithmetic and of the limit have
no clause of their own. -/
structure RunRelation (left right : Arithmetic) where
  Rel {α : Type} : Run α → Run α → Prop
  pure {α : Type} (a : α) : Rel (Pure.pure a) (Pure.pure a)
  fail {α : Type} (e : RuntimeError) (hlimit : ∀ depth, e ≠ .recursionLimit depth)
    (hoverflow : ∀ m op n, e ≠ .overflow m op n) : Rel (Run.fail e : Run α) (Run.fail e)
  call (name : String) (argument : Value) :
    Rel (Run.emit (.callRec name argument)) (Run.emit (.callRec name argument))
  compute (op : Operator) (m n : Int) :
    Rel (Evaluation.compute left op m n) (Evaluation.compute right op m n)
  bind {α β : Type} {r s : Run α} {f g : α → Run β} (hr : Rel r s) (hf : ∀ a, Rel (f a) (g a)) :
    Rel (r >>= f) (s >>= g)
  within {α : Type} {r s : Run α} (h : Rel r s) (env : Env) (expr : Expr) :
    Rel (Run.within env expr r) (Run.within env expr s)

namespace RunRelation

variable {left right : Arithmetic} (R : RunRelation left right)

theorem integer (v : Value) : R.Rel (Evaluation.integer v) (Evaluation.integer v) := by
  unfold Evaluation.integer
  split
  · exact R.pure _
  · exact R.fail _ (by simp) (by simp)

theorem reportCall (code : Code) (v : Value) :
    R.Rel (Evaluation.reportCall code v) (Evaluation.reportCall code v) := by
  unfold Evaluation.reportCall
  split
  · exact R.pure _
  · exact R.call _ _

/-- Rule applications are related if their premises are. -/
theorem step {eval eval' : Env → Expr → Run Derived}
    (heval : ∀ env expr, R.Rel (eval env expr) (eval' env expr)) (env : Env) (expr : Expr) :
    R.Rel (Evaluation.step left eval env expr) (Evaluation.step right eval' env expr) := by
  cases expr with
  | int | bool | func => exact R.pure _
  | var name =>
    cases env with
    | empty => exact R.fail _ (by simp) (by simp)
    | extend rest bound value =>
      simp only [Evaluation.step]
      split
      · exact R.pure _
      · exact R.bind (heval _ _) fun _ => R.pure _
  | binary op left right =>
    exact R.bind (heval _ _) fun l => R.bind (heval _ _) fun r => R.bind (R.integer _) fun m =>
      R.bind (R.integer _) fun n => R.bind (R.compute op m n) fun _ => R.pure _
  | cond condition thenBranch elseBranch =>
    refine R.bind (heval _ _) fun c => ?_
    split
    · exact R.bind (heval _ _) fun _ => R.pure _
    · exact R.bind (heval _ _) fun _ => R.pure _
    · exact R.fail _ (by simp) (by simp)
  | letIn name value body =>
    exact R.bind (heval _ _) fun _ => R.bind (heval _ _) fun _ => R.pure _
  | letRec name param functionBody body => exact R.bind (heval _ _) fun _ => R.pure _
  | app function argument =>
    refine R.bind (heval _ _) fun f => ?_
    split
    · exact R.bind (heval _ _) fun a => R.bind (R.reportCall _ _) fun _ =>
        R.bind (heval _ _) fun _ => R.pure _
    · exact R.fail _ (by simp) (by simp)

/-- Evaluations under one limit are related if the error of that limit is. -/
theorem evalWith {limit : Nat}
    (hlimit : R.Rel (Run.fail (.recursionLimit limit) : Run Derived)
      (Run.fail (.recursionLimit limit)))
    (room : Nat) (env : Env) (expr : Expr) :
    R.Rel (Evaluation.evalWith left limit room env expr)
      (Evaluation.evalWith right limit room env expr) := by
  induction room generalizing env expr with
  | zero => exact hlimit
  | succ room ih => exact R.within (R.step ih env expr) env expr

end RunRelation

end BigStep
