import BigStep.Expr.Code
import BigStep.Integer
import BigStep.Token.Lexer

/-!
# Parser

The grammar, with every repetition folded to the left:

```text
expression     := if expression then expression else expression
                | let rec IDENT = fun IDENT -> expression in expression
                | let IDENT = expression in expression
                | fun IDENT -> expression
                | comparison
comparison     := additive ('<' additive)*
additive       := multiplicative (('+' | '-') multiplicative)*
multiplicative := application ('*' application)*
application    := primary primary*
primary        := NUMBER | BOOL | IDENT | '(' expression ')'
```

An expression may stand inside `maxNesting` parentheses and keyword constructs; the `fun` in a
recursive binding is not one of its own. The parser of each layer takes the parser `inner` of the
expressions one level further in, and `expression room` is the expression for which `room` levels
are left, its own included; so the recursion is on the room alone.

A `Parser` keeps the tokens it has not used up on failure as well: a token that is found wrong has
been taken.
-/

namespace BigStep

/-- A parser takes tokens off the front of a list, and gives a result or fails. -/
abbrev Parser (α : Type) : Type := EStateM ParseError (List Located) α

namespace Parser

/-- The number of levels inside which an expression may stand. -/
def maxNesting : Nat := 200

/-- The next token, which stays in the list. -/
def peek? : Parser (Option Token) := fun tokens => .ok (tokens.head?.map (·.token)) tokens

/-- The next token, taken off the list. -/
def take? : Parser (Option Located) := fun tokens => .ok tokens.head? tokens.tail

/-- Fails on a token that was `expected` to be another one. A list that has run out reads as the
end of a text at offset `0`. -/
def unexpected {α : Type} (expected : Expected) : Option Located → Parser α
  | some found => throw (.unexpectedToken expected found.token.kind found.position)
  | none => throw (.unexpectedToken expected .eof 0)

/-- Takes the given token. -/
def expect (token : Token) : Parser Unit := do
  let found ← take?
  if found.map (·.token) = some token then pure () else unexpected (.token token.kind) found

/-- Takes an identifier and gives its name. -/
def identifier : Parser String := do
  match ← take? with
  | some ⟨.ident name, _⟩ => pure name
  | found => unexpected (.token .ident) found

/-- Repeats `step` until it declines to go on, at most `rounds` times. -/
def iterate {α : Type} (step : α → Parser (Option α)) : Nat → α → Parser α
  | 0, a => pure a
  | rounds + 1, a => do
    match ← step a with
    | some b => iterate step rounds b
    | none => pure a

/-- Repeats `step` until it declines to go on. A step that goes on takes a token, so there are at
most as many rounds as tokens. -/
def repeatFrom {α : Type} (step : α → Parser (Option α)) (a : α) : Parser α := fun tokens =>
  iterate step tokens.length a tokens

/-- A literal, a variable or an expression in parentheses. -/
def primary (inner : Parser Expr) : Parser Expr := do
  match ← take? with
  | some ⟨.number digits, position⟩ =>
    match Integer.ofText? digits.toList with
    | some n => pure (.int n)
    | none => throw (.literalTooLarge digits position)
  | some ⟨.bool b, _⟩ => pure (.bool b)
  | some ⟨.ident name, _⟩ => pure (.var name)
  | some ⟨.openParen, _⟩ => do
    let e ← inner
    expect .closeParen
    pure e
  | found => unexpected .expression found

/-- One more argument, if the next token can start one. -/
def argument? (inner : Parser Expr) (function : Expr) : Parser (Option Expr) := do
  match ← peek? with
  | some token =>
    if token.startsAtom then
      let argument ← primary inner
      pure (some (.app function argument))
    else pure none
  | none => pure none

/-- A primary applied to the primaries that follow it. -/
def application (inner : Parser Expr) : Parser Expr := do
  let function ← primary inner
  repeatFrom (argument? inner) function

/-- One of the `operators` and its right operand, if such an operator comes next. -/
def operation? (operators : List Operator) (operand : Parser Expr) (left : Expr) :
    Parser (Option Expr) := do
  match (← peek?).bind Token.operator? with
  | some op =>
    if op ∈ operators then
      let _ ← take?
      let right ← operand
      pure (some (.binary op left right))
    else pure none
  | none => pure none

/-- Operands joined by the `operators`, from the left. -/
def chain (operators : List Operator) (operand : Parser Expr) : Parser Expr := do
  let first ← operand
  repeatFrom (operation? operators operand) first

/-- Applications joined by `*`. -/
def multiplicative (inner : Parser Expr) : Parser Expr := chain [.mul] (application inner)

/-- Products joined by `+` and `-`. -/
def additive (inner : Parser Expr) : Parser Expr := chain [.add, .sub] (multiplicative inner)

/-- Sums joined by `<`. -/
def comparison (inner : Parser Expr) : Parser Expr := chain [.less] (additive inner)

/-- A conditional behind `if`. -/
def condForm (inner : Parser Expr) : Parser Expr := do
  let condition ← inner
  expect .thenKw
  let thenBranch ← inner
  expect .elseKw
  let elseBranch ← inner
  pure (.cond condition thenBranch elseBranch)

/-- A binding behind `let`. -/
def letForm (inner : Parser Expr) : Parser Expr := do
  let name ← identifier
  expect .equal
  let value ← inner
  expect .inKw
  let body ← inner
  pure (.letIn name value body)

/-- A recursive binding behind `let rec`. -/
def letRecForm (inner : Parser Expr) : Parser Expr := do
  let name ← identifier
  expect .equal
  expect .funKw
  let param ← identifier
  expect .arrow
  let functionBody ← inner
  expect .inKw
  let body ← inner
  pure (.letRec name param functionBody body)

/-- A function behind `fun`. -/
def funcForm (inner : Parser Expr) : Parser Expr := do
  let param ← identifier
  expect .arrow
  let body ← inner
  pure (.func param body)

/-- An expression in which `inner` reads the expressions one level further in. -/
def form (inner : Parser Expr) : Parser Expr := do
  match ← peek? with
  | some .ifKw =>
    let _ ← take?
    condForm inner
  | some .letKw =>
    let _ ← take?
    match ← peek? with
    | some .recKw =>
      let _ ← take?
      letRecForm inner
    | _ => letForm inner
  | some .funKw =>
    let _ ← take?
    funcForm inner
  | _ => comparison inner

/-- Fails at the next token, which would start an expression nested too deeply. -/
def tooDeep : Parser Expr := fun tokens =>
  .error (.nestingTooDeep ((tokens.head?.map (·.position)).getD 0)) tokens

/-- An expression for which `room` levels are left, its own included. With no room it fails before
taking a token. -/
def expression : Nat → Parser Expr
  | 0 => tooDeep
  | room + 1 => form (expression room)

/-- The room that is left inside `depth` levels. -/
def roomAt (depth : Nat) : Nat := maxNesting + 1 - depth

/-- A whole text: an expression, then the end. -/
def statement : Parser Expr := do
  let e ← expression (roomAt 0)
  expect .eof
  pure e

/-- The name in front of a recursive function: `rec IDENT =`. -/
def recName? : Parser (Option String) := do
  match ← peek? with
  | some .recKw =>
    let _ ← take?
    let name ← identifier
    expect .equal
    pure (some name)
  | _ => pure none

/-- The code of a function: `fun IDENT -> statement`, with `rec IDENT =` before it if it is
recursive. The body stands inside no level. -/
def code : Parser Code := do
  let name? ← recName?
  expect .funKw
  let param ← identifier
  expect .arrow
  let body ← statement
  pure ⟨name?, param, body⟩

/-- Runs a parser on the tokens of a text. -/
def runText {α : Type} (p : Parser α) (source : String) : Except ParseError α :=
  match tokenize source with
  | .error e => .error e
  | .ok tokens =>
    match p.run tokens with
    | .ok a _ => .ok a
    | .error e _ => .error e

end Parser

/-- Reads an expression from a text. -/
def Expr.parse (source : String) : Except ParseError Expr := Parser.statement.runText source

/-- Reads the code of a function from a text. -/
def Code.parse (source : String) : Except ParseError Code := Parser.code.runText source

end BigStep
