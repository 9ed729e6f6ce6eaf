import BigStep.Text.Layout
import BigStep.Value

/-!
# Derivations

A derivation is a tree of judgments. Each node names the rule by which its judgment follows from
those of its premises; the type itself does not ask that the rule allows it.

* `Judgment`: `env |- expr evalto value`, or a fact about numbers such as `1 plus 2 is 3`.
* `Rule`: the names of the rules. Those for evaluation begin with `E-`, those for facts about
  numbers with `B-`.
* `Derivation.size`: the number of nodes.
* `Derivation.render`: the text, one line for a leaf, and for a node with premises an opening and a
  closing line around theirs, which are indented by one step more. Depths are not bounded here;
  `Derivation.Writer` says how far a writer gets that counts them in machine words.
-/

namespace BigStep

/-- A rule of the system. -/
inductive Rule
  | int
  | bool
  | var1
  | var2
  | operation (op : Operator)
  | condTrue
  | condFalse
  | letIn
  | func
  | app
  | letRec
  | appRec
  | primitive (op : Operator)
  deriving DecidableEq, Repr

/-- The name of a rule. -/
def Rule.name : Rule → String
  | int => "E-Int"
  | bool => "E-Bool"
  | var1 => "E-Var1"
  | var2 => "E-Var2"
  | operation op => "E-" ++ op.ruleName
  | condTrue => "E-IfT"
  | condFalse => "E-IfF"
  | letIn => "E-Let"
  | func => "E-Fun"
  | app => "E-App"
  | letRec => "E-LetRec"
  | appRec => "E-AppRec"
  | primitive op => "B-" ++ op.ruleName

/-- A judgment: an expression has a value under an environment, or an operation on two numbers has
a result. -/
inductive Judgment
  | evalTo (env : Env) (expr : Expr) (value : Value)
  | primitive (op : Operator) (left right : Int) (result : Value)
  deriving DecidableEq, Repr

namespace Judgment

/-- What is to be evaluated: `env |- expr`, without the environment if it is empty. -/
def goalText (env : Env) (expr : Expr) : String :=
  if env.isEmpty then "|- " ++ expr.text else env.text ++ " |- " ++ expr.text

/-- The text of a judgment. -/
def text : Judgment → String
  | evalTo env expr value => goalText env expr ++ " evalto " ++ value.text
  | primitive op left right result =>
    Text.Decimal.write left ++ " " ++ op.verb ++ " " ++ Text.Decimal.write right ++ " is " ++
      result.text

end Judgment

/-- A tree of judgments with the rules that join them. -/
structure Derivation where
  judgment : Judgment
  rule : Rule
  premises : List Derivation

namespace Derivation

/-- The value in the judgment at the root, if that is an evaluation. -/
def value? (d : Derivation) : Option Value :=
  match d.judgment with
  | .evalTo _ _ value => some value
  | .primitive _ _ _ _ => none

mutual

/-- The number of nodes. -/
def size : Derivation → Nat
  | ⟨_, _, premises⟩ => 1 + sizeAll premises

/-- The number of nodes of several derivations. -/
def sizeAll : List Derivation → Nat
  | [] => 0
  | d :: ds => d.size + sizeAll ds

end

/-- The width of one step of indentation. -/
def indentWidth : Nat := 4

/-- One line at a depth. -/
def line (depth : Nat) (text : String) : String := Text.spaces (depth * indentWidth) ++ text ++ "\n"

mutual

/-- The text of the derivation, indented by `depth` steps. -/
def render (depth : Nat) : Derivation → String
  | ⟨judgment, rule, []⟩ => line depth (judgment.text ++ " by " ++ rule.name ++ " \x7b\x7d;")
  | ⟨judgment, rule, premises⟩ =>
    line depth (judgment.text ++ " by " ++ rule.name ++ " \x7b") ++
      renderAll (depth + 1) premises ++ line depth "\x7d;"

/-- The texts of several derivations, one after the other. -/
def renderAll (depth : Nat) : List Derivation → String
  | [] => ""
  | d :: ds => d.render depth ++ renderAll depth ds

end

/-- The text of the derivation. -/
def text (d : Derivation) : String := d.render 0

end Derivation

end BigStep
