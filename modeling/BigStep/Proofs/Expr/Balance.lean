import BigStep.Proofs.Expr.RoundTrip
import BigStep.Proofs.Text.Delimited

/-!
# Brackets in the text of code

No token holds a square bracket, a comma or a bar, and the parentheses of a phrase match. So the
text of code is balanced, however it is laid out, and the brackets around it can be found before
it is read.

* `readItem_lexeme`: a token is a parenthesis or holds no delimiter.
* `Matched ts`: wherever the tokens are spelled, they take up balanced text.
* `Phrase.matched`: the tokens of a phrase do so.
* `Code.balanced_of_parse`: the text of code is balanced.
-/

namespace BigStep

open Text

/-- The token is a parenthesis. -/
def Token.isParen : Token → Bool
  | openParen | closeParen => true
  | _ => false

/-- The characters can spell the token, as far as delimiters go. -/
def Token.Lexeme : Token → List Char → Prop
  | openParen, cs => cs = ['(']
  | closeParen, cs => cs = [')']
  | _, cs => cs.all isInk = true

theorem Token.Lexeme.balanced {t : Token} {cs : List Char} (h : t.Lexeme cs)
    (ht : t.isParen = false) : Balanced false cs := by
  have hink : cs.all isInk = true := by
    cases t with
    | openParen | closeParen => cases ht
    | _ => exact h
  cases cs with
  | nil => exact .nil
  | cons c cs => exact (tidy_of_all (List.cons_ne_nil c cs) hink).balanced

theorem Token.lexeme_ofWord {word : String} {cs : List Char} (h : cs.all isInk = true) :
    (ofWord word).Lexeme cs := by
  unfold ofWord
  split <;> exact h

theorem Token.lexeme_of_ofSymbol? {c : Char} {t : Token} (h : ofSymbol? c = some t) :
    t.Lexeme [c] := by
  unfold ofSymbol? at h
  split at h <;> cases h <;> rfl

theorem all_isInk_takeWhile {p : Char → Bool} (hp : ∀ c, p c = true → c.isAlphanum = true)
    {c : Char} (hc : c.isAlphanum = true) (cs : List Char) :
    (c :: cs.takeWhile p).all isInk = true := by
  refine List.all_eq_true.mpr (List.forall_mem_cons.mpr ⟨isInk_of_isAlphanum hc, fun d hd => ?_⟩)
  exact isInk_of_isAlphanum (hp d (List.all_eq_true.mp List.all_takeWhile d hd))

/-- A token is a parenthesis or holds no delimiter. -/
theorem readItem_lexeme {c : Char} {cs : List Char} {t : Token} :
    (readItem c cs).content = .ok t → t.Lexeme (readItem c cs).lexeme := by
  unfold readItem
  split
  · next hc =>
    rintro ⟨⟩
    exact all_isInk_takeWhile (fun _ => isAlphanum_of_isDigit) (isAlphanum_of_isDigit hc) cs
  split
  · next hc =>
    rintro ⟨⟩
    exact Token.lexeme_ofWord
      (all_isInk_takeWhile (fun _ h => h) (isAlphanum_of_isAlpha hc) cs)
  split
  · rintro ⟨⟩
    rfl
  split
  · next ht =>
    rintro ⟨⟩
    exact Token.lexeme_of_ofSymbol? ht
  · nofun

/-! ## Text that tokens take up -/

theorem isPlain_of_isLayout {c : Char} (h : isLayout c = true) :
    isPlain c = true ∧ c ≠ ',' := by
  simp only [isLayout, Bool.or_eq_true, beq_iff_eq] at h
  rcases h with (((rfl | rfl) | rfl) | rfl) | rfl <;> decide

/-- The text in front of a token is layout, and then comes the token. -/
theorem Spells.exists_lexeme {cs : List Char} {t : Token} {us : List Token}
    (h : Spells cs (t :: us)) :
    ∃ front lexeme rest, cs = front ++ (lexeme ++ rest) ∧ Balanced false front ∧
      t.Lexeme lexeme ∧ Spells rest us := by
  generalize hts : t :: us = ts at h
  induction h with
  | nil => cases hts
  | @layout c _ _ hc _ ih =>
    obtain ⟨front, lexeme, rest, rfl, hfront, hlexeme, hrest⟩ := ih hts
    obtain ⟨hplain, hcomma⟩ := isPlain_of_isLayout hc
    exact ⟨c :: front, lexeme, rest, rfl, .plain hplain (absurd · hcomma) hfront, hlexeme, hrest⟩
  | @token c cs _ _ _ ht h =>
    cases hts
    exact ⟨[], _, _, (lexeme_append_rest c cs).symm, .nil, readItem_lexeme ht, h⟩

/-- Wherever the tokens are spelled, they take up balanced text. -/
def Matched (ts : List Token) : Prop :=
  ∀ cs us, Spells cs (ts ++ us) →
    ∃ ds rest, cs = ds ++ rest ∧ Balanced false ds ∧ Spells rest us

namespace Matched

theorem nil : Matched [] := fun cs _ h => ⟨[], cs, rfl, .nil, h⟩

theorem append {ts us : List Token} (ht : Matched ts) (hu : Matched us) : Matched (ts ++ us) := by
  intro cs vs h
  rw [List.append_assoc] at h
  obtain ⟨ds, rest, rfl, hds, hrest⟩ := ht cs _ h
  obtain ⟨es, rest, rfl, hes, hrest⟩ := hu rest _ hrest
  exact ⟨ds ++ es, rest, by simp, hds.append hes, hrest⟩

theorem cons {t : Token} {ts : List Token} (ht : t.isParen = false) (h : Matched ts) :
    Matched (t :: ts) := by
  intro cs us hs
  obtain ⟨front, lexeme, rest, rfl, hfront, hlexeme, hrest⟩ := hs.exists_lexeme
  obtain ⟨ds, rest, rfl, hds, hrest⟩ := h rest us hrest
  refine ⟨front ++ (lexeme ++ ds), rest, by simp, ?_, hrest⟩
  exact hfront.append ((hlexeme.balanced ht).append hds)

theorem paren {ts : List Token} (h : Matched ts) :
    Matched (.openParen :: ts ++ [.closeParen]) := by
  intro cs us hs
  rw [List.append_assoc, List.cons_append] at hs
  obtain ⟨front, _, inside, rfl, hfront, rfl, hinside⟩ := hs.exists_lexeme
  obtain ⟨ds, behind, rfl, hds, hbehind⟩ := h inside _ hinside
  obtain ⟨gap, _, rest, rfl, hgap, rfl, hrest⟩ := hbehind.exists_lexeme
  refine ⟨front ++ ('(' :: (ds ++ gap) ++ [')']), rest, by simp, ?_, hrest⟩
  exact hfront.append ((hds.append hgap).enclose (.inl ⟨rfl, rfl⟩))

theorem func {param : String} {ts : List Token} (h : Matched ts) :
    Matched (.funKw :: .ident param :: .arrow :: ts) := .cons rfl (.cons rfl (.cons rfl h))

end Matched

theorem Operator.isParen_token (op : Operator) : op.token.isParen = false := by
  cases op <;> rfl

/-- The tokens of a phrase take up balanced text. -/
theorem Phrase.matched {levels layer : Nat} {ts : List Token} {e : Expr}
    (h : Phrase levels layer ts e) : Matched ts := by
  induction h with
  | number | bool | var => exact .cons rfl .nil
  | paren _ ih => exact ih.paren
  | app _ _ ihf iha => exact ihf.append iha
  | binary _ _ ihl ihr => exact ihl.append (ihr.cons (Operator.isParen_token _))
  | above _ _ ih => exact ih
  | cond _ _ _ ihc iht ihe =>
    exact .append (.append (.cons rfl ihc) (.cons rfl iht)) (.cons rfl ihe)
  | letIn _ _ ihv ihb =>
    exact .append (.cons rfl (.cons rfl (.cons rfl ihv))) (.cons rfl ihb)
  | letRec _ _ ihf ihb =>
    exact .append (.cons rfl (.cons rfl (.cons rfl (.cons rfl ihf.func)))) (.cons rfl ihb)
  | func _ ih => exact ih.func

theorem CodePhrase.matched {ts : List Token} {c : Code} (h : CodePhrase ts c) : Matched ts := by
  cases h with
  | func hb => exact hb.matched.func
  | recFunc hb => exact .cons rfl (.cons rfl (.cons rfl hb.matched.func))

theorem Spells.balanced_of_nil {cs : List Char} (h : Spells cs []) : Balanced false cs := by
  generalize hts : ([] : List Token) = ts at h
  induction h with
  | nil => exact .nil
  | layout hc _ ih =>
    obtain ⟨hplain, hcomma⟩ := isPlain_of_isLayout hc
    exact .plain hplain (absurd · hcomma) (ih hts)
  | token => cases hts

/-- The text of code is balanced. -/
theorem Code.balanced_of_parse {source : String} {c : Code} (h : Code.parse source = .ok c) :
    Balanced false source.toList := by
  obtain ⟨ts, hspells, hphrase⟩ := Code.parse_eq_ok_iff.mp h
  rw [← List.append_nil ts] at hspells
  obtain ⟨ds, rest, hsource, hds, hrest⟩ := hphrase.matched _ [] hspells
  rw [hsource]
  exact hds.append hrest.balanced_of_nil

end BigStep
