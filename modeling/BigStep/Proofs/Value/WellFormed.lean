import BigStep.Proofs.Expr.RoundTrip
import BigStep.Proofs.Text.Delimited
import BigStep.Value

/-!
# Well-formed values and environments

* `Value.WellFormed`, `Env.WellFormed`: names are identifiers, integers are in range, and bodies
  can be read, at every level of captured environments.
* `Value.closureDepth`, `Env.closureDepth`: how deep closures stand inside each other.
* `Value.Spellable`, `Env.Spellable`: names are identifiers, and literals in bodies can be written.
  Nothing bounds how deep expressions or closures are nested.
* `Expr.tidy_text`, `Value.tidy_text`, `Env.tidy_text`: in the canonical text brackets match, commas
  outside them separate bindings only, and there is no blank at either end. For values and
  environments it is enough that they are spellable.
-/

namespace BigStep

mutual

/-- Integers are in range, and closures are made of well-formed parts. -/
def Value.WellFormed : Value → Prop
  | .int n => Integer.InRange n
  | .bool _ => True
  | .closure env code => env.WellFormed ∧ code.WellFormed

/-- Every name is an identifier, and every value is well-formed. -/
def Env.WellFormed : Env → Prop
  | .empty => True
  | .extend rest name value => rest.WellFormed ∧ IsIdentifier name ∧ value.WellFormed

end

mutual

/-- The number of closures around the innermost one, and that one. -/
def Value.closureDepth : Value → Nat
  | .int _ => 0
  | .bool _ => 0
  | .closure env _ => env.closureDepth + 1

/-- The greatest depth of a value that is bound. -/
def Env.closureDepth : Env → Nat
  | .empty => 0
  | .extend rest _ value => max rest.closureDepth value.closureDepth

end

/-! ## Spellable values and environments -/

/-- The names are identifiers, and the body is spellable. -/
structure Code.Spellable (c : Code) : Prop where
  name : ∀ name ∈ c.name?, IsIdentifier name
  param : IsIdentifier c.param
  body : c.body.Spellable

mutual

/-- Closures are made of spellable parts. An integer that is a value may have a sign, so there is
no condition on it. -/
def Value.Spellable : Value → Prop
  | .int _ => True
  | .bool _ => True
  | .closure env code => env.Spellable ∧ code.Spellable

/-- Every name is an identifier, and every value is spellable. -/
def Env.Spellable : Env → Prop
  | .empty => True
  | .extend rest name value => rest.Spellable ∧ IsIdentifier name ∧ value.Spellable

end

theorem Code.WellFormed.spellable {c : Code} (h : c.WellFormed) : c.Spellable :=
  ⟨h.name, h.param, h.wellFormed_body.spellable⟩

mutual

theorem Value.spellable_of_wellFormed : (v : Value) → v.WellFormed → v.Spellable
  | .int _, _ => trivial
  | .bool _, _ => trivial
  | .closure env _, h => ⟨env.spellable_of_wellFormed h.1, h.2.spellable⟩

theorem Env.spellable_of_wellFormed : (env : Env) → env.WellFormed → env.Spellable
  | .empty, _ => trivial
  | .extend rest _ value, h =>
    ⟨rest.spellable_of_wellFormed h.1, h.2.1, value.spellable_of_wellFormed h.2.2⟩

end

/-! ## Tidy texts -/

open Text

theorem IsIdentifier.all_isInk {name : String} (h : IsIdentifier name) :
    name.toList.all isInk = true :=
  List.all_eq_true.mpr fun c hc => isInk_of_isAlphanum (List.all_eq_true.mp h.2.1 c hc)

theorem IsIdentifier.tidy {name : String} (h : IsIdentifier name) : Tidy false name.toList := by
  obtain ⟨c, cs, hcs, -⟩ := h.exists_cons
  exact tidy_of_all (by simp [hcs]) h.all_isInk

theorem all_isInk_write (n : Int) : (Decimal.write n).toList.all isInk = true := by
  have hdigits (m : Nat) : (Nat.toDigits 10 m).all isInk = true := by
    refine List.all_eq_true.mpr fun c hc => ?_
    exact isInk_of_isAlphanum (isAlphanum_of_isDigit (Decimal.isDigit_of_mem_toDigits hc))
  cases n with
  | ofNat m =>
    rw [show Int.ofNat m = (m : Int) from rfl, Decimal.toList_write_ofNat]
    exact hdigits m
  | negSucc m =>
    rw [Decimal.toList_write_negSucc]
    exact hdigits (m + 1)

theorem tidy_write (n : Int) : Tidy false (Decimal.write n).toList := by
  refine tidy_of_all ?_ (all_isInk_write n)
  cases n <;> simp [Decimal.write]

theorem tidy_bool (b : Bool) : Tidy false (Expr.bool b).text.toList := by
  cases b <;> exact tidy_of_all (List.cons_ne_nil _ _) rfl

theorem Expr.tidy_textAt {e : Expr} (h : Tidy false e.text.toList) (k : Nat) :
    Tidy false (e.textAt k).toList := by
  by_cases hk : e.precedence < k
  · have hparen : Tidy false ('(' :: e.text.toList ++ [')']) :=
      .enclose (.inl ⟨rfl, rfl⟩) h.balanced
    simpa [textAt, parenthesize, hk] using hparen
  · simpa [textAt, parenthesize, hk] using h

theorem Expr.tidy_func {x : String} (hx : IsIdentifier x) {rest : List Char}
    (h : Tidy false rest) :
    Tidy false ("fun ".toList ++ (x.toList ++ (" -> ".toList ++ rest))) :=
  (hx.tidy.join (.of_all rfl) h).behind (.of_all rfl) rfl

theorem Expr.tidy_rec {f : String} (hf : IsIdentifier f) {rest : List Char}
    (h : Tidy false rest) :
    Tidy false ("rec ".toList ++ (f.toList ++ (" = ".toList ++ rest))) :=
  (hf.tidy.join (.of_all rfl) h).behind (.of_all rfl) rfl

/-- The canonical text of an expression is tidy. -/
theorem Expr.tidy_text {e : Expr} (h : e.Spellable) : Tidy false e.text.toList := by
  induction e with
  | int n => exact tidy_write n
  | bool b => exact tidy_bool b
  | var name => exact h.tidy
  | binary op l r ihl ihr =>
    have hmiddle : Balanced false (" ".toList ++ (op.symbol.toList ++ " ".toList)) := by
      cases op <;> exact .of_all rfl
    simpa [text_binary] using (tidy_textAt (ihl h.1) _).join hmiddle (tidy_textAt (ihr h.2) _)
  | app f a ihf iha =>
    have hmiddle : Balanced false " ".toList := .of_all rfl
    simpa [text_app] using (tidy_textAt (ihf h.1) _).join hmiddle (tidy_textAt (iha h.2) _)
  | cond c t e ihc iht ihe =>
    have hif : Tidy false ("if ".toList ++ c.text.toList) := (ihc h.1).behind (.of_all rfl) rfl
    have hthen := hif.join (.of_all rfl : Balanced false " then ".toList) (iht h.2.1)
    have helse := hthen.join (.of_all rfl : Balanced false " else ".toList) (ihe h.2.2)
    simpa [text] using helse
  | letIn x v b ihv ihb =>
    have hlet : Tidy false ("let ".toList ++ x.toList) := h.1.tidy.behind (.of_all rfl) rfl
    have hequal := hlet.join (.of_all rfl : Balanced false " = ".toList) (ihv h.2.1)
    have hin := hequal.join (.of_all rfl : Balanced false " in ".toList) (ihb h.2.2)
    simpa [text] using hin
  | func x b ihb => simpa [text] using tidy_func h.1 (ihb h.2)
  | letRec f x e b ihe ihb =>
    have hrec := tidy_rec h.1 (tidy_func h.2.1 (ihe h.2.2.1))
    have hlet : Tidy false ("let ".toList ++ _) := hrec.behind (.of_all rfl) rfl
    have hin := hlet.join (.of_all rfl : Balanced false " in ".toList) (ihb h.2.2.2)
    simpa [text] using hin

/-- The canonical text of code is tidy. -/
theorem Code.Spellable.tidy_text {c : Code} (h : c.Spellable) : Tidy false c.text.toList := by
  have hfunc := Expr.tidy_func h.param (Expr.tidy_text h.body)
  obtain ⟨_ | name, param, body⟩ := c
  · simpa [text] using hfunc
  · simpa [text] using Expr.tidy_rec (h.name name rfl) hfunc

theorem Code.WellFormed.tidy_text {c : Code} (h : c.WellFormed) : Tidy false c.text.toList :=
  h.spellable.tidy_text

/-! ## Texts of values and environments -/

theorem Value.tidy_closure {env : Env} {code : Code} (henv : Balanced true env.text.toList)
    (hcode : Tidy false code.text.toList) : Tidy false (Value.closure env code).text.toList := by
  have hround : Tidy false ('(' :: env.text.toList ++ [')']) := .enclose (.inl ⟨rfl, rfl⟩) henv
  have hsquare : Tidy false ('[' :: code.text.toList ++ [']']) :=
    .enclose (.inr ⟨rfl, rfl⟩) hcode.balanced
  simpa [text] using hround.join .nil hsquare

/-- The text of a binding. -/
def bindingText (name : String) (value : Value) : List Char :=
  name.toList ++ (" = ".toList ++ value.text.toList)

theorem tidy_bindingText {name : String} {value : Value} (hname : IsIdentifier name)
    (hvalue : Tidy false value.text.toList) : Tidy false (bindingText name value) :=
  hname.tidy.join (.of_all rfl) hvalue

theorem Env.text_extend_empty (name : String) (value : Value) :
    (Env.extend .empty name value).text.toList = bindingText name value := by
  simp [text, bindingText]

theorem Env.text_extend {rest : Env} (h : rest ≠ .empty) (name : String) (value : Value) :
    (Env.extend rest name value).text.toList =
      rest.text.toList ++ (", ".toList ++ bindingText name value) := by
  cases rest with
  | empty => exact absurd rfl h
  | extend older bound v => simp [text, bindingText]

theorem Env.tidy_extend {rest : Env} (hrest : rest ≠ .empty → Tidy true rest.text.toList)
    {name : String} {value : Value} (hname : IsIdentifier name)
    (hvalue : Tidy false value.text.toList) :
    Tidy true (Env.extend rest name value).text.toList := by
  have hbinding := (tidy_bindingText hname hvalue).withCommas
  by_cases h : rest = .empty
  · rw [h, text_extend_empty]
    exact hbinding
  · have hcomma : Balanced true ", ".toList := .plain rfl (fun _ => rfl) (.of_all rfl)
    rw [text_extend h]
    exact (hrest h).join hcomma hbinding

/-- The empty text is balanced too. -/
theorem Env.balanced_of_tidy {env : Env} (h : env ≠ .empty → Tidy true env.text.toList) :
    Balanced true env.text.toList := by
  by_cases hempty : env = .empty
  · rw [hempty]
    exact .nil
  · exact (h hempty).balanced

mutual

/-- The canonical text of a value is tidy. -/
theorem Value.tidy_text_of_spellable : (v : Value) → v.Spellable → Tidy false v.text.toList
  | .int n, _ => tidy_write n
  | .bool true, _ => tidy_bool true
  | .bool false, _ => tidy_bool false
  | .closure env _, h =>
    Value.tidy_closure (Env.balanced_of_tidy (env.tidy_text_of_spellable h.1)) h.2.tidy_text

/-- The canonical text of an environment with a binding is tidy, up to the commas. -/
theorem Env.tidy_text_of_spellable :
    (env : Env) → env.Spellable → env ≠ .empty → Tidy true env.text.toList
  | .empty, _, hne => absurd rfl hne
  | .extend rest _ value, h, _ =>
    Env.tidy_extend (rest.tidy_text_of_spellable h.1) h.2.1 (value.tidy_text_of_spellable h.2.2)

end

theorem Value.tidy_text (v : Value) (h : v.WellFormed) : Tidy false v.text.toList :=
  v.tidy_text_of_spellable (v.spellable_of_wellFormed h)

theorem Env.tidy_text (env : Env) (h : env.WellFormed) (hne : env ≠ .empty) :
    Tidy true env.text.toList := env.tidy_text_of_spellable (env.spellable_of_wellFormed h) hne

theorem Env.Spellable.balanced_text {env : Env} (h : env.Spellable) :
    Balanced true env.text.toList := balanced_of_tidy (env.tidy_text_of_spellable h)

theorem Env.WellFormed.balanced_text {env : Env} (h : env.WellFormed) :
    Balanced true env.text.toList := balanced_of_tidy (env.tidy_text h)

theorem Env.WellFormed.trim_text {env : Env} (h : env.WellFormed) :
    trim env.text.toList = env.text.toList := by
  by_cases hempty : env = .empty
  · rw [hempty]
    rfl
  · exact (env.tidy_text h hempty).trim_eq

end BigStep
