/-!
# Binary operators

The four operators on integers. `+`, `-` and `*` give an integer, `<` a truth value.
-/

namespace BigStep

/-- A binary operator. -/
inductive Operator
  | add
  | sub
  | mul
  | less
  deriving DecidableEq, Repr

namespace Operator

/-- How tightly the operator binds: `<` least, then `+` and `-`, then `*`. -/
def precedence : Operator → Nat
  | less => 1
  | add => 2
  | sub => 2
  | mul => 3

/-- The operator in an expression. -/
def symbol : Operator → String
  | add => "+"
  | sub => "-"
  | mul => "*"
  | less => "<"

/-- The operator in a judgment about numbers, as in `1 plus 2 is 3`. -/
def verb : Operator → String
  | add => "plus"
  | sub => "minus"
  | mul => "times"
  | less => "less than"

/-- The name of the rules for the operator, behind the letter of their family. -/
def ruleName : Operator → String
  | add => "Plus"
  | sub => "Minus"
  | mul => "Times"
  | less => "Lt"

end Operator

end BigStep
