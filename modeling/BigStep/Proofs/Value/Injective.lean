import BigStep.Proofs.Expr.Productions
import BigStep.Proofs.Text.Words
import BigStep.Proofs.Value.WellFormed

/-!
# Canonical texts determine what they are texts of

For expressions this follows from the grammar. The texts of values and environments are taken apart
by their brackets and words, so that nothing bounds how deep closures are nested.

* `Expr.text_inj`, `Code.text_inj`, `Value.text_inj`, `Env.text_inj`: two texts are equal only if
  what they show is.
* `Value.word_text`: the text of a value is a word, whatever spaces its closures show.
-/

namespace BigStep

open Text

/-! ## Expressions and code -/

/-- The canonical text of an expression determines it, at any depth of nesting. -/
theorem Expr.text_inj {e₁ e₂ : Expr} (h₁ : e₁.Spellable) (h₂ : e₂.Spellable) :
    e₁.text = e₂.text ↔ e₁ = e₂ := by
  refine ⟨fun htext => ?_, congrArg text⟩
  have hspells₁ := spells_text h₁ boundary_nil .nil
  have hspells₂ := spells_text h₂ boundary_nil .nil
  rw [htext] at hspells₁
  have htokens : e₁.tokens = e₂.tokens := by simpa using hspells₁.unique hspells₂
  have hphrase₁ := (phrase_tokens h₁ (Nat.le_max_left e₁.nesting e₂.nesting)).expression
  have hphrase₂ := (phrase_tokens h₂ (Nat.le_max_right e₁.nesting e₂.nesting)).expression
  rw [htokens] at hphrase₁
  exact hphrase₁.unique hphrase₂

theorem IsIdentifier.space_not_mem {name : String} (h : IsIdentifier name) :
    ' ' ∉ name.toList := not_mem_of_isInk h.all_isInk rfl

theorem IsIdentifier.word {name : String} (h : IsIdentifier name) : Word name.toList :=
  .of_all h.all_isInk

theorem Code.text_inj {c₁ c₂ : Code} (h₁ : c₁.Spellable) (h₂ : c₂.Spellable) :
    c₁.text = c₂.text ↔ c₁ = c₂ := by
  refine ⟨fun htext => ?_, congrArg text⟩
  obtain ⟨name₁, param₁, body₁⟩ := c₁
  obtain ⟨name₂, param₂, body₂⟩ := c₂
  have hfunc₁ : (Expr.func param₁ body₁).Spellable := ⟨h₁.param, h₁.body⟩
  have hfunc₂ : (Expr.func param₂ body₂).Spellable := ⟨h₂.param, h₂.body⟩
  have hfunc : (Expr.func param₁ body₁).text = (Expr.func param₂ body₂).text →
      param₁ = param₂ ∧ body₁ = body₂ := fun h =>
    Expr.func.inj ((Expr.text_inj hfunc₁ hfunc₂).mp h)
  rw [← String.toList_inj] at htext hfunc
  cases name₁ with
  | none =>
    cases name₂ with
    | none =>
      obtain ⟨rfl, rfl⟩ := hfunc (by simpa [text, Expr.text] using htext)
      rfl
    | some f₂ => simp [text] at htext
  | some f₁ =>
    cases name₂ with
    | none => simp [text] at htext
    | some f₂ =>
      have hcut := @cut_cancel ' ' f₁.toList f₂.toList _ _ (h₁.name f₁ rfl).space_not_mem
        (h₂.name f₂ rfl).space_not_mem (by simpa [text] using htext)
      obtain ⟨rfl, rfl⟩ := hfunc (by simpa [Expr.text] using hcut.2)
      rw [String.toList_inj.mp hcut.1]

/-! ## Values -/

theorem Text.Decimal.write_inj {m n : Int} : Decimal.write m = Decimal.write n ↔ m = n := by
  refine ⟨fun h => ?_, congrArg Decimal.write⟩
  have hread := Decimal.signed?_write m
  rw [h, Decimal.signed?_write] at hread
  exact (Option.some.inj hread).symm

theorem word_write (n : Int) : Word (Decimal.write n).toList := .of_all (all_isInk_write n)

namespace Value

theorem toList_text_closure (env : Env) (code : Code) :
    (closure env code).text.toList =
      '(' :: env.text.toList ++ ')' :: ('[' :: code.text.toList ++ [']']) := by
  simp [text]

/-- The only spaces in the text of a value are inside the brackets of a closure. -/
theorem word_text {v : Value} (h : v.Spellable) : Word v.text.toList := by
  cases v with
  | int n => exact word_write n
  | bool b => cases b <;> exact .of_all rfl
  | closure env code =>
    have henv := Word.enclose (.inl ⟨rfl, rfl⟩) h.1.balanced_text
    have hcode := Word.enclose (.inr ⟨rfl, rfl⟩) h.2.tidy_text.balanced
    simpa [toList_text_closure] using henv.append hcode

theorem int_text_ne_bool (n : Int) (b : Bool) : (int n).text ≠ (bool b).text := by
  intro h
  have hread := Decimal.signed?_write n
  rw [show Decimal.write n = (bool b).text from h] at hread
  cases b <;> cases hread

theorem closure_text_ne_int (env : Env) (code : Code) (n : Int) :
    (closure env code).text ≠ (int n).text := by
  intro h
  have hmem : '(' ∈ (int n).text.toList := by
    rw [← h, toList_text_closure]
    exact List.mem_cons_self
  exact not_mem_of_isInk (all_isInk_write n) rfl hmem

theorem closure_text_ne_bool (env : Env) (code : Code) (b : Bool) :
    (closure env code).text ≠ (bool b).text := by
  intro h
  have hlist := congrArg String.toList h
  rw [toList_text_closure] at hlist
  cases b <;> cases hlist

theorem bool_text_inj {b c : Bool} (h : (bool b).text = (bool c).text) : b = c := by
  cases b <;> cases c <;> first | rfl | exact absurd h (by decide)

/-- The first bracket of a closure is closed behind its environment. -/
theorem closure_text_cancel {env₁ env₂ : Env} {code₁ code₂ : Code}
    (h₁ : (closure env₁ code₁).Spellable) (h₂ : (closure env₂ code₂).Spellable)
    (h : (closure env₁ code₁).text = (closure env₂ code₂).text) :
    env₁.text = env₂.text ∧ code₁ = code₂ := by
  have hspan := congrArg (fun t => span? '(' ')' t.toList) h
  simp only [toList_text_closure] at hspan
  rw [span?_enclose (.inl ⟨rfl, rfl⟩) h₁.1.balanced_text,
    span?_enclose (.inl ⟨rfl, rfl⟩) h₂.1.balanced_text] at hspan
  obtain ⟨henv, hrest⟩ := Prod.mk.inj (Option.some.inj hspan)
  have hcode := List.append_cancel_right hrest
  exact ⟨String.toList_inj.mp henv,
    (Code.text_inj h₁.2 h₂.2).mp (String.toList_inj.mp (List.cons.inj hcode).2)⟩

end Value

/-! ## Environments -/

namespace Env

theorem text_extend_ne_empty {rest : Env} {name : String} {value : Value}
    (h : (extend rest name value).Spellable) : (extend rest name value).text ≠ "" := by
  intro htext
  have hopens := ((extend rest name value).tidy_text_of_spellable h nofun).opens
  rw [htext] at hopens
  cases hopens

/-- The last words of a binding are `=` and the value. -/
theorem bindingText_cancel {name₁ name₂ : String} {v₁ v₂ : Value} (h₁ : v₁.Spellable)
    (h₂ : v₂.Spellable) {front₁ front₂ : List Char}
    (h : front₁ ++ bindingText name₁ v₁ = front₂ ++ bindingText name₂ v₂) :
    front₁ ++ name₁.toList = front₂ ++ name₂.toList ∧ v₁.text = v₂.text := by
  have hwords : (front₁ ++ name₁.toList ++ " =".toList) ++ ' ' :: v₁.text.toList =
      (front₂ ++ name₂.toList ++ " =".toList) ++ ' ' :: v₂.text.toList := by
    simpa [bindingText] using h
  obtain ⟨hfront, hvalue⟩ := (v₁.word_text h₁).cancel (v₂.word_text h₂) hwords
  exact ⟨List.append_cancel_right hfront, String.toList_inj.mp hvalue⟩

/-- Behind an older binding there is a space, and in a name there is none. -/
theorem extend_text_ne {rest : Env} (hrest : rest ≠ .empty) {name₁ name₂ : String} {v₁ v₂ : Value}
    (hname : IsIdentifier name₁) (hv₁ : v₁.Spellable) (hv₂ : v₂.Spellable) :
    (extend .empty name₁ v₁).text ≠ (extend rest name₂ v₂).text := by
  intro h
  rw [← String.toList_inj, text_extend_empty, text_extend hrest, ← List.append_assoc] at h
  obtain ⟨hnames, -⟩ := @bindingText_cancel _ _ _ _ hv₁ hv₂ [] _ h
  refine hname.space_not_mem ?_
  rw [show name₁.toList = _ from hnames]
  simp

/-- The words of an environment from its end on: the newest value, `=`, and its name. -/
theorem extend_text_cancel {rest₁ rest₂ : Env} {name₁ name₂ : String} {v₁ v₂ : Value}
    (h₁ : (extend rest₁ name₁ v₁).Spellable) (h₂ : (extend rest₂ name₂ v₂).Spellable)
    (h : (extend rest₁ name₁ v₁).text = (extend rest₂ name₂ v₂).text) :
    rest₁.text = rest₂.text ∧ name₁ = name₂ ∧ v₁.text = v₂.text := by
  obtain ⟨hrest₁, hname₁, hv₁⟩ := h₁
  obtain ⟨hrest₂, hname₂, hv₂⟩ := h₂
  by_cases hempty₁ : rest₁ = .empty
  · by_cases hempty₂ : rest₂ = .empty
    · rw [hempty₁, hempty₂, ← String.toList_inj, text_extend_empty, text_extend_empty] at h
      obtain ⟨hname, hv⟩ := @bindingText_cancel _ _ _ _ hv₁ hv₂ [] [] h
      exact ⟨by rw [hempty₁, hempty₂], String.toList_inj.mp hname, hv⟩
    · rw [hempty₁] at h
      exact absurd h (extend_text_ne hempty₂ hname₁ hv₁ hv₂)
  · by_cases hempty₂ : rest₂ = .empty
    · rw [hempty₂] at h
      exact absurd h.symm (extend_text_ne hempty₁ hname₂ hv₂ hv₁)
    · rw [← String.toList_inj, text_extend hempty₁, text_extend hempty₂, ← List.append_assoc,
        ← List.append_assoc] at h
      obtain ⟨hnames, hv⟩ := bindingText_cancel hv₁ hv₂ h
      have hwords : (rest₁.text.toList ++ [',']) ++ ' ' :: name₁.toList =
          (rest₂.text.toList ++ [',']) ++ ' ' :: name₂.toList := by
        simpa using hnames
      obtain ⟨hrest, hname⟩ := hname₁.word.cancel hname₂.word hwords
      exact ⟨String.toList_inj.mp (List.append_cancel_right hrest), String.toList_inj.mp hname, hv⟩

end Env

mutual

theorem Value.eq_of_text_eq : (v₁ v₂ : Value) → v₁.Spellable → v₂.Spellable →
    v₁.text = v₂.text → v₁ = v₂
  | .int _, .int _, _, _, h => congrArg Value.int (Decimal.write_inj.mp h)
  | .int n, .bool b, _, _, h => absurd h (Value.int_text_ne_bool n b)
  | .int n, .closure env code, _, _, h => absurd h.symm (Value.closure_text_ne_int env code n)
  | .bool b, .int n, _, _, h => absurd h.symm (Value.int_text_ne_bool n b)
  | .bool _, .bool _, _, _, h => congrArg Value.bool (Value.bool_text_inj h)
  | .bool b, .closure env code, _, _, h => absurd h.symm (Value.closure_text_ne_bool env code b)
  | .closure env code, .int n, _, _, h => absurd h (Value.closure_text_ne_int env code n)
  | .closure env code, .bool b, _, _, h => absurd h (Value.closure_text_ne_bool env code b)
  | .closure env₁ code₁, .closure env₂ code₂, h₁, h₂, h => by
    obtain ⟨henv, hcode⟩ := Value.closure_text_cancel h₁ h₂ h
    rw [env₁.eq_of_text_eq env₂ h₁.1 h₂.1 henv, hcode]

theorem Env.eq_of_text_eq : (env₁ env₂ : Env) → env₁.Spellable → env₂.Spellable →
    env₁.text = env₂.text → env₁ = env₂
  | .empty, .empty, _, _, _ => rfl
  | .empty, .extend _ _ _, _, h₂, h => absurd h.symm (Env.text_extend_ne_empty h₂)
  | .extend _ _ _, .empty, h₁, _, h => absurd h (Env.text_extend_ne_empty h₁)
  | .extend rest₁ name₁ v₁, .extend rest₂ name₂ v₂, h₁, h₂, h => by
    obtain ⟨hrest, hname, hv⟩ := Env.extend_text_cancel h₁ h₂ h
    rw [rest₁.eq_of_text_eq rest₂ h₁.1 h₂.1 hrest, hname,
      v₁.eq_of_text_eq v₂ h₁.2.2 h₂.2.2 hv]

end

theorem Value.text_inj {v₁ v₂ : Value} (h₁ : v₁.Spellable) (h₂ : v₂.Spellable) :
    v₁.text = v₂.text ↔ v₁ = v₂ := ⟨v₁.eq_of_text_eq v₂ h₁ h₂, congrArg Value.text⟩

theorem Env.text_inj {env₁ env₂ : Env} (h₁ : env₁.Spellable) (h₂ : env₂.Spellable) :
    env₁.text = env₂.text ↔ env₁ = env₂ := ⟨env₁.eq_of_text_eq env₂ h₁ h₂, congrArg Env.text⟩

end BigStep
