/-!
# Delimited text

* `span? opening closing cs`: the text between a delimiter that `cs` starts with and the one that
  matches it, and the text behind.
* `splitTopLevel? cs`: the parts of `cs` between the commas that stand inside no bracket.

Both scan once from the left with a count of the delimiters that are open.
-/

namespace BigStep.Text

/-- The text up to the delimiter that closes one more than `depth` open ones, and the text behind
it. With one character for both delimiters every one of them opens, so nothing is closed. -/
def closeOff? (opening closing : Char) : Nat → List Char → Option (List Char × List Char)
  | _, [] => none
  | depth, c :: cs =>
    if c = opening then (closeOff? opening closing (depth + 1) cs).map fun (i, r) => (c :: i, r)
    else if c = closing then
      match depth with
      | 0 => some ([], cs)
      | outer + 1 => (closeOff? opening closing outer cs).map fun (i, r) => (c :: i, r)
    else (closeOff? opening closing depth cs).map fun (i, r) => (c :: i, r)

/-- Splits `opening ++ inner ++ closing ++ rest` into `inner` and `rest`, where the closing
delimiter is the one that matches the first character. -/
def span? (opening closing : Char) : List Char → Option (List Char × List Char)
  | [] => none
  | c :: cs => if c = opening then closeOff? opening closing 0 cs else none

/-- An opening round or square bracket. -/
def isOpening (c : Char) : Bool := c == '(' || c == '['

/-- A closing round or square bracket. -/
def isClosing (c : Char) : Bool := c == ')' || c == ']'

/-- The parts of a text that stands inside `depth` brackets. Round and square brackets are counted
together; a closing bracket with none open, or one left open at the end, gives no parts. -/
def splitAtDepth? : Nat → List Char → Option (List (List Char))
  | 0, [] => some [[]]
  | _ + 1, [] => none
  | depth, c :: cs =>
    if isOpening c then (splitAtDepth? (depth + 1) cs).map (·.modifyHead (c :: ·))
    else if isClosing c then
      match depth with
      | 0 => none
      | outer + 1 => (splitAtDepth? outer cs).map (·.modifyHead (c :: ·))
    else if depth = 0 ∧ c = ',' then (splitAtDepth? depth cs).map ([] :: ·)
    else (splitAtDepth? depth cs).map (·.modifyHead (c :: ·))

/-- The parts between the commas outside all brackets, or `none` if the brackets do not match. -/
def splitTopLevel? (cs : List Char) : Option (List (List Char)) := splitAtDepth? 0 cs

/-- What stands before and behind the first `c`, if there is one. -/
def cut? (c : Char) (cs : List Char) : Option (List Char × List Char) :=
  match cs.dropWhile (· != c) with
  | [] => none
  | _ :: after => some (cs.takeWhile (· != c), after)

end BigStep.Text
