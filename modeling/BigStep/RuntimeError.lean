import BigStep.Value

/-!
# Errors during evaluation
-/

namespace BigStep

/-- Why an expression has no value. `recursionLimit` only says that none was found within the
limit. -/
inductive RuntimeError
  | unboundVariable (name : String)
  | notAClosure (value : Value)
  | expectedInteger (value : Value)
  | expectedBoolean (value : Value)
  | overflow (left : Int) (op : Operator) (right : Int)
  | recursionLimit (depth : Nat)
  deriving DecidableEq, Repr

/-- The text of the error. -/
def RuntimeError.message : RuntimeError → String
  | unboundVariable name => "Runtime error: Unbound variable '" ++ name ++ "'."
  | notAClosure value =>
    "Runtime error: Cannot apply '" ++ value.text ++ "', it is not a function."
  | expectedInteger value => "Runtime error: Expected integer, found '" ++ value.text ++ "'."
  | expectedBoolean value => "Runtime error: Expected boolean, found '" ++ value.text ++ "'."
  | overflow left op right =>
    "Runtime error: Integer overflow while computing " ++ Text.Decimal.write left ++ " " ++
      op.symbol ++ " " ++ Text.Decimal.write right ++ "."
  | recursionLimit depth =>
    "Runtime error: Evaluation nested deeper than " ++ depth.repr ++ " rule applications."

end BigStep
