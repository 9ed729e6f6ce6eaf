import BigStep.Operator

/-!
# Tokens

* `Token`: what the lexer finds in a text. A number keeps its digits, so that a literal which is
  too large can be named as it was written.
* `Kind`: a token without what it carries; messages speak of kinds.
* `Located`: a token with the byte offset at which it starts.
-/

namespace BigStep

/-- The kinds of token. -/
inductive Kind
  | number
  | bool
  | funKw
  | letKw
  | recKw
  | inKw
  | ifKw
  | thenKw
  | elseKw
  | ident
  | arrow
  | equal
  | plus
  | minus
  | asterisk
  | less
  | openParen
  | closeParen
  | eof
  deriving DecidableEq, Repr

/-- The name of a kind in messages. -/
def Kind.name : Kind → String
  | number => "NUMBER"
  | bool => "BOOL"
  | funKw => "FUN"
  | letKw => "LET"
  | recKw => "REC"
  | inKw => "IN"
  | ifKw => "IF"
  | thenKw => "THEN"
  | elseKw => "ELSE"
  | ident => "IDENT"
  | arrow => "ARROW"
  | equal => "EQ"
  | plus => "PLUS"
  | minus => "MINUS"
  | asterisk => "ASTERISK"
  | less => "LT"
  | openParen => "OPEN_PAREN"
  | closeParen => "CLOSE_PAREN"
  | eof => "EOF"

/-- A token. `eof` ends every token list that the lexer makes. `layout` stands for blanks: the
lexer drops them, and where a token list holds one all the same it starts nothing and ends
nothing. -/
inductive Token
  | number (digits : String)
  | bool (value : Bool)
  | funKw
  | letKw
  | recKw
  | inKw
  | ifKw
  | thenKw
  | elseKw
  | ident (name : String)
  | arrow
  | equal
  | plus
  | minus
  | asterisk
  | less
  | openParen
  | closeParen
  | eof
  | layout
  deriving DecidableEq, Repr

namespace Token

/-- The kind of a token. Messages call `layout` what they call the end of the text. -/
def kind : Token → Kind
  | number _ => .number
  | bool _ => .bool
  | funKw => .funKw
  | letKw => .letKw
  | recKw => .recKw
  | inKw => .inKw
  | ifKw => .ifKw
  | thenKw => .thenKw
  | elseKw => .elseKw
  | ident _ => .ident
  | arrow => .arrow
  | equal => .equal
  | plus => .plus
  | minus => .minus
  | asterisk => .asterisk
  | less => .less
  | openParen => .openParen
  | closeParen => .closeParen
  | eof => .eof
  | layout => .eof

/-- The token can start an atom: a literal, a variable or a parenthesis. -/
def startsAtom : Token → Bool
  | number _ => true
  | bool _ => true
  | ident _ => true
  | openParen => true
  | _ => false

/-- The binary operator that the token stands for. -/
def operator? : Token → Option Operator
  | plus => some .add
  | minus => some .sub
  | asterisk => some .mul
  | less => some .less
  | _ => none

/-- The token of a word: a keyword, a truth value or an identifier. -/
def ofWord : String → Token
  | "fun" => funKw
  | "let" => letKw
  | "rec" => recKw
  | "in" => inKw
  | "if" => ifKw
  | "then" => thenKw
  | "else" => elseKw
  | "true" => bool true
  | "false" => bool false
  | word => ident word

/-- The token of a single character that is neither a letter nor a digit. -/
def ofSymbol? : Char → Option Token
  | '=' => some equal
  | '+' => some plus
  | '-' => some minus
  | '*' => some asterisk
  | '<' => some less
  | '(' => some openParen
  | ')' => some closeParen
  | _ => none

end Token

/-- A token and the byte offset at which it starts. -/
structure Located where
  token : Token
  position : Nat
  deriving DecidableEq, Repr

end BigStep
