import BigStep.DecodeError
import BigStep.Expr.Parser
import BigStep.Text.Blank
import BigStep.Text.Delimited
import BigStep.Value

/-!
# Reading values and environments

```text
environment := blank | binding (',' binding)*
binding     := IDENT '=' value
value       := true | false | an integer | closure
closure     := '(' environment ')' '[' code ']'
```

Blanks may stand around every part. An integer has at most one sign and is in range. Closures may
stand inside each other to a depth of `maxClosureDepth`; each reader has the depth that is left as
its `room`, and the recursion is on that room.

The brackets are matched before anything inside them is read, so a text with an unmatched bracket
is refused for that, whatever else is wrong in it.
-/

namespace BigStep

namespace Decode

/-- How deep closures may stand inside each other. -/
def maxClosureDepth : Nat := 200

/-- The text between the delimiter at the front and the one that matches it, and the text
behind. -/
def balancedSpan (opening closing : Char) (text : List Char) :
    Except DecodeError (List Char × List Char) :=
  match Text.span? opening closing text with
  | some parts => .ok parts
  | none => .error (.unbalancedDelimiter (String.ofList text))

/-- The bindings of an environment, cut apart. -/
def splitBindings (text : List Char) : Except DecodeError (List (List Char)) :=
  match Text.splitTopLevel? text with
  | some parts => .ok parts
  | none => .error (.unbalancedDelimiter (String.ofList text))

/-- The text is an identifier: a letter, then letters and digits, and no keyword or truth value. -/
def isIdentifier : List Char → Bool
  | [] => false
  | c :: cs =>
    c.isAlpha && cs.all Char.isAlphanum &&
      decide ((Token.ofWord (String.ofList (c :: cs))).kind = .ident)

/-- One binding added to an environment, where `value` reads the text behind the `=`. -/
def binding (value : List Char → Except DecodeError Value) (env : Env) (text : List Char) :
    Except DecodeError Env :=
  match Text.cut? '=' text with
  | none => .error (.malformedBinding (String.ofList (Text.trim text)))
  | some (name, rest) =>
    if isIdentifier (Text.trim name) then do
      let v ← value rest
      return env.extend (String.ofList (Text.trim name)) v
    else .error (.malformedBinding (String.ofList (Text.trim text)))

/-- An environment whose values are read by `value`. -/
def environment (value : List Char → Except DecodeError Value) (text : List Char) :
    Except DecodeError Env :=
  let text := Text.trim text
  if text.isEmpty then .ok .empty
  else do
    let parts ← splitBindings text
    parts.foldlM (binding value) .empty

/-- A closure whose captured environment is read by `captured`. -/
def closureForm (captured : List Char → Except DecodeError Env) (text : List Char) :
    Except DecodeError Value := do
  let text := Text.trim text
  let malformed := fun reason => DecodeError.malformedClosure (String.ofList text) reason
  let (envText, rest) ← balancedSpan '(' ')' text
  let rest := Text.trimStart rest
  if rest.head? ≠ some '[' then
    throw (malformed "expected '[' after the captured environment")
  let (codeText, tail) ← balancedSpan '[' ']' rest
  let tail := Text.trim tail
  if !tail.isEmpty then
    throw (malformed ("unexpected trailing text '" ++ String.ofList tail ++ "'"))
  let env ← captured envText
  match Code.parse (String.ofList codeText) with
  | .ok code => return .closure env code
  | .error e => throw (malformed e.message)

/-- A value whose closures are read by `closure`. -/
def valueForm (closure : List Char → Except DecodeError Value) (text : List Char) :
    Except DecodeError Value :=
  let text := Text.trim text
  if text = ['t', 'r', 'u', 'e'] then .ok (.bool true)
  else if text = ['f', 'a', 'l', 's', 'e'] then .ok (.bool false)
  else if text.head? = some '(' then closure text
  else
    match Integer.ofText? text with
    | some n => .ok (.int n)
    | none => .error (.invalidValue (String.ofList text))

/-- A closure inside which closures may stand to a depth below `room`. With no room at all it fails
before looking at the text. -/
def closureIn : Nat → List Char → Except DecodeError Value
  | 0 => fun _ => .error (.nestingTooDeep maxClosureDepth)
  | room + 1 => closureForm (environment (valueForm (closureIn room)))

end Decode

/-- Reads a closure from a text. -/
def Value.decodeClosure (text : String) : Except DecodeError Value :=
  Decode.closureIn Decode.maxClosureDepth text.toList

/-- Reads a value from a text. -/
def Value.decode (text : String) : Except DecodeError Value :=
  Decode.valueForm (Decode.closureIn Decode.maxClosureDepth) text.toList

/-- Reads an environment from a text. -/
def Env.decode (text : String) : Except DecodeError Env :=
  Decode.environment (Decode.valueForm (Decode.closureIn Decode.maxClosureDepth)) text.toList

end BigStep
