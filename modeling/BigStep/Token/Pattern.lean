import BigStep.Token.Lexer

/-!
# Patterns of tokens

The lexer as a table: what the text of each token looks like. At each place of a text the longest
match counts, and of several patterns that match the same text the one that says more about it.

* `Pattern`: a fixed text, or a character of one class and then any number of another.
* `Pattern.accepts`: a text matches a pattern.
* `Pattern.priority`: two for each character that is written out, one for a class, and nothing for
  what is repeated.
* `TokenRule.table`: the patterns with their tokens. Layout is matched like a token.
* `TokenRule.Wins`: a rule, and how much of a text it takes from the front.
-/

namespace BigStep

/-- A class of characters. -/
inductive CharClass
  | digit
  | letter
  | letterOrDigit
  | layout
  deriving DecidableEq, Repr

/-- The character is in the class. -/
def CharClass.contains : CharClass → Char → Bool
  | digit => Char.isDigit
  | letter => Char.isAlpha
  | letterOrDigit => Char.isAlphanum
  | layout => isLayout

/-- What the text of a token looks like. -/
inductive Pattern
  /-- This text. -/
  | text (text : String)
  /-- One character of a class, and any number of characters of another. -/
  | run (first later : CharClass)
  deriving DecidableEq, Repr

namespace Pattern

/-- The text matches the pattern. -/
def accepts : Pattern → List Char → Bool
  | text t, cs => cs == t.toList
  | run _ _, [] => false
  | run first later, c :: cs => first.contains c && cs.all later.contains

/-- How much the pattern says about a text that it matches. -/
def priority : Pattern → Nat
  | text t => 2 * t.length
  | run _ _ => 1

end Pattern

/-- A pattern, and the token of a text that matches it. -/
structure TokenRule where
  pattern : Pattern
  token : String → Token

namespace TokenRule

/-- The rules of the lexer. -/
def table : List TokenRule :=
  [⟨.run .digit .digit, .number⟩,
    ⟨.text "true", fun _ => .bool true⟩,
    ⟨.text "false", fun _ => .bool false⟩,
    ⟨.text "fun", fun _ => .funKw⟩,
    ⟨.text "let", fun _ => .letKw⟩,
    ⟨.text "rec", fun _ => .recKw⟩,
    ⟨.text "in", fun _ => .inKw⟩,
    ⟨.text "if", fun _ => .ifKw⟩,
    ⟨.text "then", fun _ => .thenKw⟩,
    ⟨.text "else", fun _ => .elseKw⟩,
    ⟨.run .letter .letterOrDigit, .ident⟩,
    ⟨.text "->", fun _ => .arrow⟩,
    ⟨.text "=", fun _ => .equal⟩,
    ⟨.text "+", fun _ => .plus⟩,
    ⟨.text "-", fun _ => .minus⟩,
    ⟨.text "*", fun _ => .asterisk⟩,
    ⟨.text "<", fun _ => .less⟩,
    ⟨.text "(", fun _ => .openParen⟩,
    ⟨.text ")", fun _ => .closeParen⟩,
    ⟨.run .layout .layout, fun _ => .layout⟩]

/-- The rule takes `lexeme` from the front of the text. No rule could take more, and another one
that could take as much has a lower priority. -/
structure Wins (rule : TokenRule) (lexeme text : List Char) : Prop where
  mem_table : rule ∈ table
  starts : lexeme <+: text
  accepts : rule.pattern.accepts lexeme = true
  longest : ∀ other ∈ table, ∀ l, l <+: text → other.pattern.accepts l = true →
    l.length ≤ lexeme.length
  highest : ∀ other ∈ table, other.pattern.accepts lexeme = true →
    other.pattern = rule.pattern ∨ other.pattern.priority < rule.pattern.priority

end TokenRule

end BigStep
