import BigStep.Text.Quoted
import BigStep.Token

/-!
# Errors in the text of an expression

Each error carries the byte offset of the character or token that it is about.
-/

namespace BigStep

/-- What could have stood where an unexpected token does. -/
inductive Expected
  | token (kind : Kind)
  | expression
  deriving DecidableEq, Repr

/-- The name of an expectation in messages. -/
def Expected.name : Expected → String
  | token kind => kind.name
  | expression => "expression"

/-- Why a text is no expression. -/
inductive ParseError
  | unknownCharacter (char : Char) (position : Nat)
  | unexpectedToken (expected : Expected) (found : Kind) (position : Nat)
  | literalTooLarge (literal : String) (position : Nat)
  | nestingTooDeep (position : Nat)
  deriving DecidableEq, Repr

namespace ParseError

/-- The text of the error. -/
def message : ParseError → String
  | unknownCharacter c position =>
    "Lexing error at " ++ position.repr ++ ": Unknown token: " ++ Text.quote c ++ "."
  | unexpectedToken expected found position =>
    "Syntax error at " ++ position.repr ++ ": Expected " ++ expected.name ++ ", got " ++
      found.name ++ "."
  | literalTooLarge literal position =>
    "Syntax error at " ++ position.repr ++ ": Literal " ++ literal ++ " is too large."
  | nestingTooDeep position =>
    "Syntax error at " ++ position.repr ++ ": Expression is nested too deeply."

end ParseError

end BigStep
