import BigStep.Operator
import BigStep.Text.Decimal

/-!
# Expressions

* `Expr`: the expressions of the language.
* `Expr.precedence`: how tightly the outermost construct binds.
* `Expr.text`: the canonical text, with no parenthesis that the grammar does not need.

An expression holds any integer and any name. Text that can be read back has literals from `0` up
and names that are identifiers.
-/

namespace BigStep

/-- An expression. -/
inductive Expr
  | int (n : Int)
  | bool (b : Bool)
  | var (name : String)
  | binary (op : Operator) (left right : Expr)
  | cond (condition thenBranch elseBranch : Expr)
  | letIn (name : String) (value body : Expr)
  | letRec (name param : String) (functionBody body : Expr)
  | func (param : String) (body : Expr)
  | app (function argument : Expr)
  deriving DecidableEq, Repr, Inhabited

namespace Expr

/-- The precedence of an application: above every operator, below the atoms. -/
def appPrecedence : Nat := 4

/-- The precedence of the outermost construct: `0` for those that begin with a keyword, up to `5`
for an atom. -/
def precedence : Expr → Nat
  | int _ => 5
  | bool _ => 5
  | var _ => 5
  | app _ _ => appPrecedence
  | binary op _ _ => op.precedence
  | cond _ _ _ => 0
  | letIn _ _ _ => 0
  | letRec _ _ _ _ => 0
  | func _ _ => 0

/-- The text, in parentheses if `needed`. -/
def parenthesize (needed : Bool) (text : String) : String :=
  if needed then "(" ++ text ++ ")" else text

/-- The canonical text. Operators and application associate to the left, so a right operand of the
same precedence stands in parentheses and a left one does not. -/
def text : Expr → String
  | int n => Text.Decimal.write n
  | bool true => "true"
  | bool false => "false"
  | var name => name
  | binary op left right =>
    parenthesize (left.precedence < op.precedence) left.text ++ " " ++ op.symbol ++ " " ++
      parenthesize (right.precedence ≤ op.precedence) right.text
  | cond condition thenBranch elseBranch =>
    "if " ++ condition.text ++ " then " ++ thenBranch.text ++ " else " ++ elseBranch.text
  | letIn name value body => "let " ++ name ++ " = " ++ value.text ++ " in " ++ body.text
  | letRec name param functionBody body =>
    "let rec " ++ name ++ " = fun " ++ param ++ " -> " ++ functionBody.text ++ " in " ++ body.text
  | func param body => "fun " ++ param ++ " -> " ++ body.text
  | app function argument =>
    parenthesize (function.precedence < appPrecedence) function.text ++ " " ++
      parenthesize (argument.precedence ≤ appPrecedence) argument.text

end Expr

end BigStep
