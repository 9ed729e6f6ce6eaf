import BigStep.Expr

/-!
# Code of functions

What a closure keeps of a function: its parameter and its body, and its own name if it is
recursive. The text is `fun x -> e`, or `rec f = fun x -> e`.
-/

namespace BigStep

/-- The code of a function. -/
structure Code where
  name? : Option String
  param : String
  body : Expr
  deriving DecidableEq, Repr

/-- The canonical text of the code. -/
def Code.text (code : Code) : String :=
  (match code.name? with
    | none => ""
    | some name => "rec " ++ name ++ " = ") ++
  "fun " ++ code.param ++ " -> " ++ code.body.text

end BigStep
