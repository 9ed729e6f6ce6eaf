import BigStep.Text.Decimal

/-!
# Signed 64-bit integers

The language computes with the integers from `-2^63` to `2^63 - 1`. They are kept as `Int`, and
every place that makes a new one (a literal, a decoded value, a primitive operation) asks whether
it is in range, so nothing ever wraps around.
-/

namespace BigStep.Integer

/-- The least integer, `-2^63`. -/
def least : Int := -9223372036854775808

/-- The greatest integer, `2^63 - 1`. -/
def greatest : Int := 9223372036854775807

/-- The integer has a signed 64-bit form. -/
def InRange (n : Int) : Prop := least ≤ n ∧ n ≤ greatest

instance (n : Int) : Decidable (InRange n) := inferInstanceAs (Decidable (_ ∧ _))

/-- The integer itself, if it is in range. -/
def checked (n : Int) : Option Int := if InRange n then some n else none

/-- Reads an optional sign and decimal digits that denote an integer in range. -/
def ofText? (cs : List Char) : Option Int := (Text.Decimal.signed? cs).bind checked

theorem checked_eq_some_iff {n m : Int} : checked n = some m ↔ InRange n ∧ n = m := by
  unfold checked
  split <;> simp_all

theorem inRange_of_ofText? {cs : List Char} {n : Int} (h : ofText? cs = some n) : InRange n := by
  obtain ⟨m, -, hm⟩ := Option.bind_eq_some_iff.mp h
  obtain ⟨hr, rfl⟩ := checked_eq_some_iff.mp hm
  exact hr

/-- The numeral of an integer in range is read back as that integer. -/
theorem ofText?_write {n : Int} (h : InRange n) :
    ofText? (Text.Decimal.write n).toList = some n := by
  rw [ofText?, Text.Decimal.signed?_write]
  exact checked_eq_some_iff.mpr ⟨h, rfl⟩

/-- Digits alone are read as an integer from zero up. -/
theorem nonneg_of_ofText? {cs : List Char} {n : Int} (hcs : cs.all Char.isDigit = true)
    (h : ofText? cs = some n) : 0 ≤ n := by
  obtain ⟨m, hm, hc⟩ := Option.bind_eq_some_iff.mp h
  obtain ⟨-, rfl⟩ := checked_eq_some_iff.mp hc
  rw [Text.Decimal.signed?_of_isDigit hcs] at hm
  obtain ⟨k, -, rfl⟩ := Option.map_eq_some_iff.mp hm
  exact Int.natCast_nonneg k

end BigStep.Integer
