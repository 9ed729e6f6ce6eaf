import BigStep.ParseError

/-!
# Lexer

A text is read from left to right, each token as long as it can be:

| token | text |
|---|---|
| number | digits |
| keyword, truth value, identifier | a letter, then letters and digits |
| `->` | itself, before `-` alone |
| symbol | one of `= + - * < ( )` |

Letters and digits are ASCII. Space, tab, carriage return, line feed and form feed stand between
tokens. Any other character is an error, and reading can go on behind it.

* `readItem`: one item off the front of a text.
* `Cursor.next`: one item with its position; at the end it is `eof`, as often as it is asked for.
* `Cursor.items`: all items up to and with the first `eof`.
* `tokenize`: the tokens of a text, closed by `eof`, or its first error.
-/

namespace BigStep

/-- The characters between tokens. -/
def isLayout (c : Char) : Bool :=
  c == ' ' || c == '\t' || c == '\r' || c == '\n' || c == '\x0c'

/-- The length of a text in UTF-8 bytes. -/
def byteLength : List Char → Nat
  | [] => 0
  | c :: cs => c.utf8Size + byteLength cs

/-- One item of a text: a token or a character that belongs to none, with the text it covers and
the text behind it. -/
structure Item where
  content : Except Char Token
  lexeme : List Char
  rest : List Char

/-- The item at the front of the text `c :: cs`, where `c` is no layout. -/
def readItem (c : Char) (cs : List Char) : Item :=
  if c.isDigit then
    let digits := c :: cs.takeWhile Char.isDigit
    ⟨.ok (.number (String.ofList digits)), digits, cs.dropWhile Char.isDigit⟩
  else if c.isAlpha then
    let word := c :: cs.takeWhile Char.isAlphanum
    ⟨.ok (Token.ofWord (String.ofList word)), word, cs.dropWhile Char.isAlphanum⟩
  else if c = '-' ∧ cs.head? = some '>' then ⟨.ok .arrow, ['-', '>'], cs.tail⟩
  else
    match Token.ofSymbol? c with
    | some token => ⟨.ok token, [c], cs⟩
    | none => ⟨.error c, [c], cs⟩

/-- The item and what is left make up the text. -/
theorem lexeme_append_rest (c : Char) (cs : List Char) :
    (readItem c cs).lexeme ++ (readItem c cs).rest = c :: cs := by
  unfold readItem
  split
  · simp
  · split
    · simp
    · split
      · next h =>
        obtain ⟨rfl, h⟩ := h
        cases cs <;> simp_all
      · split <;> simp

/-- Reading an item uses up at least one character. -/
theorem readItem_rest_length_le (c : Char) (cs : List Char) :
    (readItem c cs).rest.length ≤ cs.length := by
  unfold readItem
  split
  · exact (List.dropWhile_sublist _).length_le
  · split
    · exact (List.dropWhile_sublist _).length_le
    · split
      · simp
      · split <;> simp

/-- A place in a text: the characters from there on, and the byte offset of the first of them. -/
structure Cursor where
  rest : List Char
  position : Nat

namespace Cursor

/-- The start of a text. -/
def start (source : String) : Cursor := ⟨source.toList, 0⟩

/-- The first place from here on that is no layout. -/
def skipLayout (c : Cursor) : Cursor :=
  ⟨c.rest.dropWhile isLayout, c.position + byteLength (c.rest.takeWhile isLayout)⟩

/-- The content of an item as a token or an error at a position. -/
def locate (position : Nat) : Except Char Token → Except ParseError Located
  | .ok token => .ok ⟨token, position⟩
  | .error char => .error (.unknownCharacter char position)

/-- The next item from here, and the place behind it. -/
def next (c : Cursor) : Except ParseError Located × Cursor :=
  let here := c.skipLayout
  match here.rest with
  | [] => (.ok ⟨.eof, here.position⟩, here)
  | char :: chars =>
    let item := readItem char chars
    (locate here.position item.content, ⟨item.rest, here.position + byteLength item.lexeme⟩)

/-- The next `count` items from here. -/
def take : Nat → Cursor → List (Except ParseError Located)
  | 0, _ => []
  | count + 1, c => c.next.1 :: take count c.next.2

/-- An item before the end uses up part of the text. -/
theorem next_rest_length_lt {c : Cursor} (h : c.skipLayout.rest ≠ []) :
    c.next.2.rest.length < c.rest.length := by
  obtain ⟨char, chars, hcs⟩ := List.exists_cons_of_ne_nil h
  have hnext : c.next.2.rest = (readItem char chars).rest := by simp [next, hcs]
  have hitem := readItem_rest_length_le char chars
  have hskip : c.skipLayout.rest.length ≤ c.rest.length := (List.dropWhile_sublist _).length_le
  rw [hcs, List.length_cons] at hskip
  rw [hnext]
  omega

/-- All items from here up to and with the first `eof`. -/
def items (c : Cursor) : List (Except ParseError Located) :=
  if c.skipLayout.rest = [] then [c.next.1] else c.next.1 :: items c.next.2
termination_by c.rest.length
decreasing_by exact next_rest_length_lt ‹_›

end Cursor

/-- The tokens of a text, closed by `eof` at its byte length; or its first error. -/
def tokenize (source : String) : Except ParseError (List Located) :=
  (Cursor.start source).items.mapM id

end BigStep
