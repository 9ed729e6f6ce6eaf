import BigStep.Text.Hidden

/-!
# Quoted characters

`quote c` is the form in which a message names the character `c`: between single quotes, with an
escape where the character itself could not be read.

| character | written |
|---|---|
| NUL, tab, carriage return, line feed | `\0`, `\t`, `\r`, `\n` |
| `'` and `\` | with a backslash before them |
| hidden (`isHidden`) | `\u{…}` with its code point in lower-case hexadecimal |
| any other | itself |
-/

namespace BigStep.Text

/-- The code point of `c` in hexadecimal: lower case, no leading zeros. -/
def codePoint (c : Char) : String := String.ofList (Nat.toDigits 16 c.toNat)

/-- The character as it stands between the quotes. -/
def escape (c : Char) : String :=
  if c.toNat = 0 then "\\0"
  else if c = '\t' then "\\t"
  else if c = '\r' then "\\r"
  else if c = '\n' then "\\n"
  else if c = '\'' then "\\'"
  else if c = '\\' then "\\\\"
  else if isHidden c then "\\u\x7b" ++ codePoint c ++ "\x7d"
  else c.toString

/-- The character between single quotes, escaped where needed. -/
def quote (c : Char) : String := "'" ++ escape c ++ "'"

end BigStep.Text
