/-!
# Errors in the text of a value or an environment

Each error quotes the part of the text that it is about.
-/

namespace BigStep

/-- Why a text is no value or environment. -/
inductive DecodeError
  | unbalancedDelimiter (text : String)
  | malformedClosure (text reason : String)
  | malformedBinding (text : String)
  | invalidValue (text : String)
  | nestingTooDeep (depth : Nat)
  deriving DecidableEq, Repr

/-- The text of the error. -/
def DecodeError.message : DecodeError → String
  | unbalancedDelimiter text => "Decode error: Unbalanced delimiters in '" ++ text ++ "'."
  | malformedClosure text reason =>
    "Decode error: Malformed closure '" ++ text ++ "': " ++ reason ++ "."
  | malformedBinding text =>
    "Decode error: Binding '" ++ text ++ "' is not of the form 'ident = value'."
  | invalidValue text => "Decode error: '" ++ text ++ "' is not a value."
  | nestingTooDeep depth =>
    "Decode error: Closures nested more than " ++ depth.repr ++ " levels deep."

end BigStep
