import BigStep.Proofs.Expr.Parser
import BigStep.Proofs.Expr.WellFormed

/-!
# Printing and parsing expressions

The canonical text of an expression reads back as the same expression just if it is well-formed,
and nothing else is ever read. The same holds of the code of functions.

* `Phrase.wellFormed`: an expression with a phrase of genuine tokens is well-formed.
* `Expr.spells_text`: the canonical text spells the canonical tokens.
* `Parser.runText_eq_ok_iff`: reading a text is reading the tokens that it spells.
* `Expr.parse_text_iff_wellFormed`: the round trip of expressions.
* `Code.WellFormed.parse_text`, `Code.wellFormed_of_parse`: the round trip of code.
-/

namespace BigStep

/-- A phrase whose tokens come from a text is for a spellable expression. -/
theorem Phrase.spellable {levels layer : Nat} {ts : List Token} {e : Expr}
    (h : Phrase levels layer ts e) (hts : ∀ t ∈ ts, t.Genuine) : e.Spellable := by
  induction h with
  | @number _ digits n hn =>
    obtain ⟨-, hdigits⟩ := hts (.number digits) (by simp)
    exact ⟨Integer.nonneg_of_ofText? hdigits hn, (Integer.inRange_of_ofText? hn).2⟩
  | bool => trivial
  | @var _ name => exact hts (.ident name) (by simp)
  | paren _ ih => exact ih fun t ht => hts t (by simp [ht])
  | app _ _ ihl ihr | binary _ _ ihl ihr =>
    exact ⟨ihl fun t ht => hts t (by simp [ht]), ihr fun t ht => hts t (by simp [ht])⟩
  | cond _ _ _ ihc iht ihe =>
    exact ⟨ihc fun t ht => hts t (by simp [ht]), iht fun t ht => hts t (by simp [ht]),
      ihe fun t ht => hts t (by simp [ht])⟩
  | @letIn _ name _ _ _ _ _ _ ihv ihb =>
    exact ⟨hts (.ident name) (by simp), ihv fun t ht => hts t (by simp [ht]),
      ihb fun t ht => hts t (by simp [ht])⟩
  | @letRec _ name param _ _ _ _ _ _ ihf ihb =>
    exact ⟨hts (.ident name) (by simp), hts (.ident param) (by simp),
      ihf fun t ht => hts t (by simp [ht]), ihb fun t ht => hts t (by simp [ht])⟩
  | @func _ param _ _ _ ihb =>
    exact ⟨hts (.ident param) (by simp), ihb fun t ht => hts t (by simp [ht])⟩
  | above _ _ ih => exact ih hts

theorem Phrase.wellFormed {ts : List Token} {e : Expr} (h : Phrase Parser.maxNesting 0 ts e)
    (hts : ∀ t ∈ ts, t.Genuine) : e.WellFormed :=
  ⟨h.spellable hts, (Expr.nestingAt_le_iff.mp h.nestingAt_le).1⟩

namespace Expr

/-! ## The canonical text spells the canonical tokens -/

theorem spells_textAt {e : Expr} {k : Nat} {rest : List Char} {ts : List Token}
    (he : ∀ rest ts, Boundary rest → Spells rest ts →
      Spells (e.text.toList ++ rest) (e.tokens ++ ts))
    (hb : Boundary rest) (h : Spells rest ts) :
    Spells ((e.textAt k).toList ++ rest) (e.tokensAt k ++ ts) := by
  by_cases hk : e.precedence < k
  · have hclose : Spells (')' :: rest) (.closeParen :: ts) := .token rfl rfl h
    have hinner := he _ _ (boundary_cons rfl) hclose
    simpa [textAt, tokensAt, parenthesize, parenthesizeTokens, hk] using
      Spells.token (c := '(') rfl rfl hinner
  · simpa [textAt, tokensAt, parenthesize, parenthesizeTokens, hk] using he _ _ hb h

theorem spells_symbol (op : Operator) {rest : List Char} {ts : List Token} (h : Spells rest ts) :
    Spells (" ".toList ++ (op.symbol.toList ++ (" ".toList ++ rest))) (op.token :: ts) := by
  cases op <;> exact .layout rfl (.token rfl rfl (.layout rfl h))

theorem spells_write {n : Int} (hn : 0 ≤ n) {rest : List Char} {ts : List Token}
    (hb : Boundary rest) (h : Spells rest ts) :
    Spells ((Text.Decimal.write n).toList ++ rest) (.number (Text.Decimal.write n) :: ts) := by
  obtain ⟨m, rfl⟩ := Int.eq_ofNat_of_zero_le hn
  have hdigits : (Nat.toDigits 10 m).all Char.isDigit = true :=
    List.all_eq_true.mpr fun _ => Text.Decimal.isDigit_of_mem_toDigits
  rw [← String.ofList_toList (s := Text.Decimal.write m), Text.Decimal.toList_write_ofNat]
  simpa using h.number Nat.toDigits_ne_nil hdigits hb

theorem spells_let {rest : List Char} {ts : List Token} (h : Spells rest ts) :
    Spells ("let ".toList ++ rest) (.letKw :: ts) :=
  .token rfl rfl (.layout rfl h)

/-- What stands in front of the body of a function. -/
theorem spells_func {x : String} (hx : IsIdentifier x) {rest : List Char} {ts : List Token}
    (h : Spells rest ts) :
    Spells ("fun ".toList ++ (x.toList ++ (" -> ".toList ++ rest)))
      (.funKw :: .ident x :: .arrow :: ts) := by
  have harrow : Spells (" -> ".toList ++ rest) (.arrow :: ts) :=
    .layout rfl (.token rfl rfl (.layout rfl h))
  exact .token rfl rfl (.layout rfl (harrow.ident hx (boundary_text rfl)))

/-- What stands in front of a recursive function. -/
theorem spells_rec {f : String} (hf : IsIdentifier f) {rest : List Char} {ts : List Token}
    (h : Spells rest ts) :
    Spells ("rec ".toList ++ (f.toList ++ (" = ".toList ++ rest)))
      (.recKw :: .ident f :: .equal :: ts) := by
  have hequal : Spells (" = ".toList ++ rest) (.equal :: ts) :=
    .layout rfl (.token rfl rfl (.layout rfl h))
  exact .token rfl rfl (.layout rfl (hequal.ident hf (boundary_text rfl)))

/-- The canonical text spells the canonical tokens. -/
theorem spells_text {e : Expr} (he : e.Spellable) {rest : List Char} {ts : List Token}
    (hb : Boundary rest) (h : Spells rest ts) :
    Spells (e.text.toList ++ rest) (e.tokens ++ ts) := by
  induction e generalizing rest ts with
  | int n => exact spells_write he.1 hb h
  | bool b => cases b <;> exact h.word rfl rfl hb
  | var name => exact h.ident he hb
  | binary op l r ihl ihr =>
    have hr := spells_textAt (k := op.precedence + 1) (fun _ _ => ihr he.2) hb h
    have hl := spells_textAt (k := op.precedence) (fun _ _ => ihl he.1) (boundary_text rfl)
      (spells_symbol op hr)
    simpa [text_binary, tokens_binary] using hl
  | app f a ihf iha =>
    have ha : Spells (" ".toList ++ ((a.textAt 5).toList ++ rest)) (a.tokensAt 5 ++ ts) :=
      .layout rfl (spells_textAt (fun _ _ => iha he.2) hb h)
    have hf := spells_textAt (k := 4) (fun _ _ => ihf he.1) (boundary_text rfl) ha
    simpa [text_app, tokens_app] using hf
  | cond c t e ihc iht ihe =>
    have helse : Spells (" else ".toList ++ _) (.elseKw :: _) :=
      .layout rfl (.token rfl rfl (.layout rfl (ihe he.2.2 hb h)))
    have hthen : Spells (" then ".toList ++ _) (.thenKw :: _) :=
      .layout rfl (.token rfl rfl (.layout rfl (iht he.2.1 (boundary_text rfl) helse)))
    have hif : Spells ("if ".toList ++ _) (.ifKw :: _) :=
      .token rfl rfl (.layout rfl (ihc he.1 (boundary_text rfl) hthen))
    simpa [text, tokens] using hif
  | letIn x v b ihv ihb =>
    have hin : Spells (" in ".toList ++ _) (.inKw :: _) :=
      .layout rfl (.token rfl rfl (.layout rfl (ihb he.2.2 hb h)))
    have hequal : Spells (" = ".toList ++ _) (.equal :: _) :=
      .layout rfl (.token rfl rfl (.layout rfl (ihv he.2.1 (boundary_text rfl) hin)))
    simpa [text, tokens] using spells_let (hequal.ident he.1 (boundary_text rfl))
  | func x b ihb =>
    simpa [text, tokens] using spells_func he.1 (ihb he.2 hb h)
  | letRec f x e b ihe ihb =>
    obtain ⟨hf, hx, he, hbody⟩ := he
    have hin : Spells (" in ".toList ++ _) (.inKw :: _) :=
      .layout rfl (.token rfl rfl (.layout rfl (ihb hbody hb h)))
    have hrec := spells_rec hf (spells_func hx (ihe he (boundary_text rfl) hin))
    simpa [text, tokens] using spells_let hrec

end Expr

/-! ## Texts and phrases -/

/-- A result can be compared by evaluation, as an option. -/
theorem eq_ok_of_toOption {ε α : Type} {x : Except ε α} {a : α} (h : x.toOption = some a) :
    x = .ok a := by
  cases x with
  | error e => cases h
  | ok b =>
    cases h
    rfl

/-- The end of the text is where `eof` first stands. -/
theorem eq_of_append_eof {ts us vs : List Token} (hts : ∀ t ∈ ts, t.Genuine)
    (h : us ++ .eof :: vs = ts ++ [.eof]) : us = ts := by
  rcases List.append_eq_append_iff.mp h with ⟨ws, rfl, hws⟩ | ⟨ws, rfl, hws⟩
  · cases ws with
    | nil => simp
    | cons w ws =>
      obtain ⟨rfl, -⟩ := List.cons.inj hws
      exact (hts .eof (by simp)).elim
  · cases ws with
    | nil => simp
    | cons w ws => simp at hws

/-- A parser that reads the phrases `P` up to the end reads, from a text, the phrases that the text
spells. -/
theorem Parser.runText_eq_ok_iff {α : Type} {p : Parser α} {P : List Token → α → Prop}
    (hp : ∀ {s s' : List Located} {a : α}, p s = .ok a s' ↔
      ∃ used position, s = used ++ ⟨.eof, position⟩ :: s' ∧ P (used.map (·.token)) a)
    {source : String} {a : α} :
    p.runText source = .ok a ↔ ∃ ts, Spells source.toList ts ∧ P ts a := by
  constructor
  · intro h
    unfold runText at h
    split at h
    · cases h
    next located hlocated =>
    split at h
    · next s' hrun =>
      cases h
      obtain ⟨used, position, rfl, hP⟩ := hp.mp hrun
      obtain ⟨ts, hts, hspells⟩ := spells_of_tokenize hlocated
      rw [List.map_append, List.map_cons] at hts
      exact ⟨ts, hspells, eq_of_append_eof hspells.genuine hts ▸ hP⟩
    · cases h
  · rintro ⟨ts, hspells, hP⟩
    obtain ⟨located, hlocated, hts⟩ := tokenize_of_spells hspells
    obtain ⟨used, _, rfl, rfl, hend⟩ := List.map_eq_append_iff.mp hts
    obtain ⟨⟨_, position⟩, _, rfl, rfl, hnil⟩ := List.map_eq_cons_iff.mp hend
    cases List.map_eq_nil_iff.mp hnil
    have hrun : p (used ++ [⟨.eof, position⟩]) = .ok a [] := hp.mpr ⟨used, position, rfl, hP⟩
    simp only [runText, hlocated, EStateM.run, hrun]

theorem Expr.parse_eq_ok_iff {source : String} {e : Expr} :
    Expr.parse source = .ok e ↔
      ∃ ts, Spells source.toList ts ∧ Phrase Parser.maxNesting 0 ts e :=
  Parser.runText_eq_ok_iff Parser.statement_eq_ok_iff

theorem Code.parse_eq_ok_iff {source : String} {c : Code} :
    Code.parse source = .ok c ↔ ∃ ts, Spells source.toList ts ∧ CodePhrase ts c :=
  Parser.runText_eq_ok_iff Parser.code_eq_ok_iff

/-! ## The round trip -/

namespace Expr

/-- A well-formed expression is read back from its canonical text. -/
theorem WellFormed.parse_text {e : Expr} (h : e.WellFormed) : Expr.parse e.text = .ok e := by
  have hspells := spells_text h.spellable boundary_nil .nil
  rw [List.append_nil, List.append_nil] at hspells
  exact parse_eq_ok_iff.mpr ⟨_, hspells, (phrase_tokens h.spellable h.nesting_le).expression⟩

/-- Only well-formed expressions are ever read. -/
theorem wellFormed_of_parse {source : String} {e : Expr} (h : Expr.parse source = .ok e) :
    e.WellFormed := by
  obtain ⟨ts, hspells, hphrase⟩ := parse_eq_ok_iff.mp h
  exact hphrase.wellFormed hspells.genuine

/-- An expression is read back from its canonical text just if it is well-formed, and whatever is
read from any text is well-formed, so that it is read back from its canonical text too. -/
theorem parse_text_iff_wellFormed :
    (∀ e : Expr, Expr.parse e.text = .ok e ↔ e.WellFormed) ∧
      ∀ (source : String) (e : Expr), Expr.parse source = .ok e →
        e.WellFormed ∧ Expr.parse e.text = .ok e := by
  refine ⟨fun e => ⟨wellFormed_of_parse, WellFormed.parse_text⟩, fun source e h => ?_⟩
  exact ⟨wellFormed_of_parse h, (wellFormed_of_parse h).parse_text⟩

end Expr

/-! ## Code of functions -/

namespace Code

/-- The names are identifiers, and the body is an expression that can be read. -/
structure WellFormed (c : Code) : Prop where
  name : ∀ name ∈ c.name?, IsIdentifier name
  param : IsIdentifier c.param
  body : ∃ source, Expr.parse source = .ok c.body

theorem WellFormed.wellFormed_body {c : Code} (h : c.WellFormed) : c.body.WellFormed := by
  obtain ⟨source, hparse⟩ := h.body
  exact Expr.wellFormed_of_parse hparse

/-- Well-formed code is read back from its canonical text. -/
theorem WellFormed.parse_text {c : Code} (h : c.WellFormed) : Code.parse c.text = .ok c := by
  have hbody := h.wellFormed_body
  have hphrase := (Expr.phrase_tokens hbody.spellable hbody.nesting_le).expression
  have hspells := Expr.spells_func h.param (Expr.spells_text hbody.spellable boundary_nil .nil)
  obtain ⟨_ | name, param, body⟩ := c
  · exact parse_eq_ok_iff.mpr ⟨_, by simpa [text] using hspells, .func hphrase⟩
  · have hrec := Expr.spells_rec (h.name name rfl) hspells
    exact parse_eq_ok_iff.mpr ⟨_, by simpa [text] using hrec, .recFunc hphrase⟩

/-- Only well-formed code is ever read. -/
theorem wellFormed_of_parse {source : String} {c : Code} (h : Code.parse source = .ok c) :
    c.WellFormed := by
  obtain ⟨ts, hspells, hcode⟩ := parse_eq_ok_iff.mp h
  have hgenuine := hspells.genuine
  cases hcode with
  | @func param bs body hbody =>
    have hwf := hbody.wellFormed fun t ht => hgenuine t (by simp [ht])
    exact ⟨nofun, hgenuine (.ident param) (by simp), _, hwf.parse_text⟩
  | @recFunc name param bs body hbody =>
    have hwf := hbody.wellFormed fun t ht => hgenuine t (by simp [ht])
    refine ⟨?_, hgenuine (.ident param) (by simp), _, hwf.parse_text⟩
    rintro _ ⟨⟩
    exact hgenuine (.ident name) (by simp)

end Code

end BigStep
