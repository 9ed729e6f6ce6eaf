/-!
# Decimal numerals

Integers are written with ASCII digits and, below zero, a minus sign. Two readers accept more than
is written: leading zeros, and one leading `+`.

* `digits?`: an unsigned numeral, one digit or more.
* `signed?`: a numeral with at most one sign in front.
* `write`: the numeral of an integer.
-/

namespace BigStep.Text.Decimal

/-- The number that a non-empty list of ASCII digits denotes. -/
def digits? (cs : List Char) : Option Nat :=
  if cs.isEmpty || !cs.all Char.isDigit then none else some (Nat.ofDigitChars 10 cs 0)

/-- The integer that an optional sign followed by digits denotes. -/
def signed? : List Char → Option Int
  | '-' :: cs => (digits? cs).map fun n => -(n : Int)
  | '+' :: cs => (digits? cs).map Int.ofNat
  | cs => (digits? cs).map Int.ofNat

/-- The numeral of an integer: no leading zeros, and a minus sign below zero. -/
def write : Int → String
  | .ofNat n => n.repr
  | .negSucc n => "-" ++ (n + 1).repr

theorem digits?_eq_some_iff {cs : List Char} {n : Nat} :
    digits? cs = some n ↔ cs ≠ [] ∧ cs.all Char.isDigit = true ∧ Nat.ofDigitChars 10 cs 0 = n := by
  unfold digits?
  cases cs <;> simp [and_assoc]

/-- The numeral of a natural number is read back as that number. -/
theorem digits?_toDigits (n : Nat) : digits? (Nat.toDigits 10 n) = some n := by
  refine digits?_eq_some_iff.mpr ⟨Nat.toDigits_ne_nil, ?_, Nat.ofDigitChars_ten_toDigits⟩
  exact List.all_eq_true.mpr fun c hc => Nat.isDigit_of_mem_toDigits (by decide) (by decide) hc

/-- Digits alone are read as a natural number. -/
theorem signed?_of_isDigit {cs : List Char} (h : cs.all Char.isDigit = true) :
    signed? cs = (digits? cs).map Int.ofNat := by
  unfold signed?
  split
  · cases h
  · cases h
  · rfl

theorem toList_write_ofNat (n : Nat) : (write n).toList = Nat.toDigits 10 n := Nat.toList_repr

theorem toList_write_negSucc (n : Nat) :
    (write (.negSucc n)).toList = '-' :: Nat.toDigits 10 (n + 1) := by
  simp [write]

theorem isDigit_of_mem_toDigits {n : Nat} {c : Char} (h : c ∈ Nat.toDigits 10 n) :
    c.isDigit = true :=
  Nat.isDigit_of_mem_toDigits (by decide) (by decide) h

/-- The numeral of an integer is read back as that integer. -/
theorem signed?_write (n : Int) : signed? (write n).toList = some n := by
  cases n with
  | ofNat n =>
    rw [show Int.ofNat n = (n : Int) from rfl, toList_write_ofNat,
      signed?_of_isDigit (List.all_eq_true.mpr fun _ => isDigit_of_mem_toDigits), digits?_toDigits]
    rfl
  | negSucc n =>
    rw [toList_write_negSucc, signed?, digits?_toDigits]
    rfl

end BigStep.Text.Decimal
