import BigStep.Derivation

/-!
# Writing derivations

`Derivation.render` says how a derivation is laid out, at any depth. A writer counts its depth in
machine words and pads its lines by a formatter, and neither goes on without end.

* `Build`: what the writer was built with. Where a count leaves the word the run stops, or the word
  keeps the low bits; and the formatter stops the run if it is asked for too much padding.
* `Build.word`, `Build.padding`: a number as a word, and the spaces in front of a line.
* `Build.writeAt`: the text that is written, or nothing if the run stops.
-/

namespace BigStep

/-- What becomes of a number that is too large for a machine word. -/
inductive Overflow
  /-- The run stops. -/
  | stop
  /-- The word keeps the low bits. -/
  | wrap
  deriving DecidableEq, Repr

/-- What a writer was built with. -/
structure Build where
  overflow : Overflow
  /-- The greatest number of spaces that the formatter puts in front of a text. -/
  maxWidth : UInt64
  deriving DecidableEq, Repr

namespace Build

/-- A build that checks its counts. -/
def checked : Build := ⟨.stop, 65535⟩

/-- A build that does not. -/
def unchecked : Build := ⟨.wrap, 65535⟩

/-- The word for a number. -/
def word (b : Build) (n : Nat) : Option UInt64 :=
  if n < UInt64.size then some (UInt64.ofNat n)
  else
    match b.overflow with
    | .stop => none
    | .wrap => some (UInt64.ofNat n)

/-- The spaces in front of a line at a depth. -/
def padding (b : Build) (depth : UInt64) : Option String := do
  let width ← b.word (depth.toNat * Derivation.indentWidth)
  if width ≤ b.maxWidth then some (Text.spaces width.toNat) else none

mutual

/-- The text of a derivation, written from a depth on. -/
def writeAt (b : Build) (depth : UInt64) : Derivation → Option String
  | ⟨judgment, rule, []⟩ => do
    let pad ← b.padding depth
    return pad ++ (judgment.text ++ " by " ++ rule.name ++ " \x7b\x7d;") ++ "\n"
  | ⟨judgment, rule, premises⟩ => do
    let pad ← b.padding depth
    let inner ← writeAll b depth premises
    return pad ++ (judgment.text ++ " by " ++ rule.name ++ " \x7b") ++ "\n" ++ inner ++
      (pad ++ "\x7d;" ++ "\n")

/-- The texts of the premises of a derivation at a depth, each one step deeper. -/
def writeAll (b : Build) (depth : UInt64) : List Derivation → Option String
  | [] => some ""
  | d :: ds => do
    let deeper ← b.word (depth.toNat + 1)
    let first ← b.writeAt deeper d
    let later ← writeAll b depth ds
    return first ++ later

end

end Build

end BigStep
