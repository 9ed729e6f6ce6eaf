import BigStep.Proofs.Expr.Balance
import BigStep.Proofs.Expr.Productions

/-!
# The fewest parentheses

However an expression is written, its canonical text has the same tokens in the same order, less
some pairs of parentheses. So no text of the expression has fewer parentheses, and none is nested
less deeply.

* `Paired`: every parenthesis among the tokens has its partner.
* `Unwraps ts us`: `us` is what is left of `ts` once some pairs of parentheses, perhaps none, are
  taken away with what is between them left standing.
* `Token.shortest`: the token with its number as it is canonically written. Two numbers have the
  same value just if they have the same shortest form.
* `Phrase.unwraps`: every phrase unwraps to the canonical tokens of its expression.
* `Expr.text_fewest_parentheses`: the same for texts, with what follows for the number of
  parentheses and for the levels.
-/

namespace BigStep

/-! ## Pairs of parentheses -/

/-- Every parenthesis has its partner. -/
inductive Paired : List Token → Prop
  | nil : Paired []
  | token {t : Token} {ts : List Token} (ht : t.isParen = false) (h : Paired ts) : Paired (t :: ts)
  | group {inner ts : List Token} (hinner : Paired inner) (h : Paired ts) :
      Paired (.openParen :: inner ++ .closeParen :: ts)

/-- The second list is what is left of the first once some pairs of parentheses are taken away. The
two parentheses of a pair have only paired ones between them. -/
inductive Unwraps : List Token → List Token → Prop
  | same (ts : List Token) : Unwraps ts ts
  | drop {before inner after us : List Token} (hinner : Paired inner)
      (h : Unwraps (before ++ inner ++ after) us) :
      Unwraps (before ++ .openParen :: inner ++ .closeParen :: after) us

theorem Paired.append {ts us : List Token} (ht : Paired ts) (hu : Paired us) :
    Paired (ts ++ us) := by
  induction ht with
  | nil => exact hu
  | token ht _ ih => exact .token ht ih
  | group hinner _ _ ih => simpa using hinner.group ih

theorem Paired.paren {ts : List Token} (h : Paired ts) :
    Paired (.openParen :: ts ++ [.closeParen]) := h.group .nil

theorem Paired.func {param : String} {ts : List Token} (h : Paired ts) :
    Paired (.funKw :: .ident param :: .arrow :: ts) := .token rfl (.token rfl (.token rfl h))

namespace Unwraps

theorem trans {ts us vs : List Token} (h : Unwraps ts us) (h' : Unwraps us vs) : Unwraps ts vs := by
  induction h with
  | same => exact h'
  | drop hinner _ ih => exact .drop hinner (ih h')

/-- Pairs can be taken away wherever the tokens stand. -/
theorem within {ts us : List Token} (h : Unwraps ts us) (front back : List Token) :
    Unwraps (front ++ ts ++ back) (front ++ us ++ back) := by
  induction h with
  | same => exact .same _
  | @drop before inner after us hinner _ ih =>
    have hdrop := @Unwraps.drop (front ++ before) inner (after ++ back) (front ++ us ++ back) hinner
      (by simpa using ih)
    simpa using hdrop

theorem append {ts us vs ws : List Token} (h : Unwraps ts us) (h' : Unwraps vs ws) :
    Unwraps (ts ++ vs) (us ++ ws) := by
  have hfirst := h.within [] vs
  have hsecond := h'.within us []
  simp only [List.nil_append, List.append_nil] at hfirst hsecond
  exact hfirst.trans hsecond

theorem cons {ts us : List Token} (t : Token) (h : Unwraps ts us) : Unwraps (t :: ts) (t :: us) :=
  (same [t]).append h

/-- The outermost pair is taken away. -/
theorem paren {ts : List Token} (h : Paired ts) :
    Unwraps (.openParen :: ts ++ [.closeParen]) ts := by
  have hdrop := @Unwraps.drop [] ts [] ts h (by simpa using same ts)
  simpa using hdrop

/-- All other tokens are left, in their order. -/
theorem filter_eq {ts us : List Token} (h : Unwraps ts us) :
    us.filter (fun t => !t.isParen) = ts.filter (fun t => !t.isParen) := by
  induction h with
  | same => rfl
  | drop _ _ ih => simpa [Token.isParen] using ih

theorem countP_le {ts us : List Token} (h : Unwraps ts us) :
    us.countP Token.isParen ≤ ts.countP Token.isParen := by
  induction h with
  | same => exact Nat.le_refl _
  | drop _ _ ih =>
    simp only [List.countP_append, List.countP_cons] at ih ⊢
    omega

end Unwraps

/-! ## Numbers by value -/

/-- The token with its number, if it is one, as the value of it is canonically written. -/
def Token.shortest : Token → Token
  | number digits => .number (decimalValue digits).repr
  | t => t

theorem Token.isParen_shortest (t : Token) : t.shortest.isParen = t.isParen := by
  cases t <;> rfl

theorem Operator.shortest_token (op : Operator) : op.token.shortest = op.token := by
  cases op <;> rfl

theorem countP_isParen_map_shortest (ts : List Token) :
    (ts.map Token.shortest).countP Token.isParen = ts.countP Token.isParen := by
  rw [List.countP_map]
  congr 1
  funext t
  exact Token.isParen_shortest t

/-! ## Phrases -/

/-- The parentheses of a phrase are paired. -/
theorem Phrase.paired {levels layer : Nat} {ts : List Token} {e : Expr}
    (h : Phrase levels layer ts e) : Paired ts := by
  induction h with
  | number | bool | var => exact .token rfl .nil
  | paren _ ih => exact ih.paren
  | app _ _ ihf iha => exact ihf.append iha
  | binary _ _ ihl ihr => exact ihl.append (.token (Operator.isParen_token _) ihr)
  | cond _ _ _ ihc iht ihe =>
    exact .append (.append (.token rfl ihc) (.token rfl iht)) (.token rfl ihe)
  | letIn _ _ ihv ihb =>
    exact .append (.token rfl (.token rfl (.token rfl ihv))) (.token rfl ihb)
  | letRec _ _ ihf ihb =>
    exact .append (.token rfl (.token rfl (.token rfl (.token rfl ihf.func)))) (.token rfl ihb)
  | func _ ih => exact ih.func
  | above _ _ ih => exact ih

namespace Expr

theorem tokensAt_zero (e : Expr) : e.tokensAt 0 = e.tokens := by
  simp [tokensAt, parenthesizeTokens]

theorem tokensAt_of_le {e : Expr} {k : Nat} (h : k ≤ e.precedence) : e.tokensAt k = e.tokens := by
  simp [tokensAt, parenthesizeTokens, Nat.not_lt.mpr h]

theorem tokensAt_of_lt {e : Expr} {k : Nat} (h : e.precedence < k) :
    e.tokensAt k = .openParen :: e.tokens ++ [.closeParen] := by
  simp [tokensAt, parenthesizeTokens, h]

/-- In parentheses an expression has all those that it needs as an operand. -/
theorem Spellable.unwraps_paren {e : Expr} (h : e.Spellable) (k : Nat) :
    Unwraps (.openParen :: e.tokens ++ [.closeParen]) (e.tokensAt k) := by
  by_cases hk : e.precedence < k
  · exact tokensAt_of_lt hk ▸ .same _
  · rw [tokensAt_of_le (Nat.not_lt.mp hk)]
    exact .paren (phrase_tokens h (Nat.le_refl _)).paired

/-- An operand of a lower layer needs no more parentheses. -/
theorem Spellable.unwraps_tokensAt {e : Expr} (h : e.Spellable) {j k : Nat} (hjk : j ≤ k) :
    Unwraps (e.tokensAt k) (e.tokensAt j) := by
  by_cases hk : e.precedence < k
  · exact tokensAt_of_lt hk ▸ h.unwraps_paren j
  · have hk : k ≤ e.precedence := Nat.not_lt.mp hk
    rw [tokensAt_of_le hk, tokensAt_of_le (Nat.le_trans hjk hk)]
    exact .same _

end Expr

/-- The digits of a number that is read are, in their shortest form, those of the literal. -/
theorem Token.Genuine.shortest_number {digits : String} {n : Int}
    (hg : (Token.number digits).Genuine) (h : Integer.ofText? digits.toList = some n) :
    (Token.number digits).shortest = .number (Text.Decimal.write n) := by
  obtain ⟨rfl, -⟩ := (Integer.ofText?_eq_some_iff hg.1 hg.2).mp h
  rfl

/-- Every phrase unwraps to the canonical tokens of its expression in that layer. -/
theorem Phrase.unwraps {levels layer : Nat} {ts : List Token} {e : Expr}
    (h : Phrase levels layer ts e) (hts : ∀ t ∈ ts, t.Genuine) :
    Unwraps (ts.map Token.shortest) (e.tokensAt layer) := by
  induction h with
    try simp only [List.forall_mem_append, List.forall_mem_cons] at hts
  | number h =>
    rw [List.map_singleton, hts.1.shortest_number h]
    exact .same _
  | bool | var => exact .same _
  | @paren levels ts e h ih =>
    have hinner : Unwraps (ts.map Token.shortest) e.tokens := e.tokensAt_zero ▸ ih hts.1.2
    -- The pair stays around what is no primary by itself, and is taken away from all else.
    have hpair := (h.spellable hts.1.2).unwraps_paren 5
    have houter := (hinner.cons .openParen).append (.same [.closeParen])
    simpa [Token.shortest] using houter.trans hpair
  | app _ _ ihf iha =>
    rw [Expr.tokensAt_of_le (Nat.le_refl 4), Expr.tokens_app, List.map_append]
    exact (ihf hts.1).append (iha hts.2)
  | @binary levels op ls rs l r _ _ ihl ihr =>
    rw [Expr.tokensAt_of_le (e := .binary op l r) (Nat.le_refl op.precedence), Expr.tokens_binary,
      List.map_append, List.map_cons, Operator.shortest_token]
    exact (ihl hts.1).append ((ihr hts.2.2).cons op.token)
  | cond _ _ _ ihc iht ihe =>
    simp only [Expr.tokensAt_zero] at ihc iht ihe ⊢
    have hall := (((ihc hts.1.1.2).cons .ifKw).append ((iht hts.1.2.2).cons .thenKw)).append
      ((ihe hts.2.2).cons .elseKw)
    simpa [Expr.tokens, Token.shortest] using hall
  | @letIn levels name vs bs v b _ _ ihv ihb =>
    simp only [Expr.tokensAt_zero] at ihv ihb ⊢
    have hall := ((Unwraps.same [.letKw, .ident name, .equal]).append (ihv hts.1.2.2.2)).append
      ((ihb hts.2.2).cons .inKw)
    simpa [Expr.tokens, Token.shortest] using hall
  | @letRec levels name param fs bs f b _ _ ihf ihb =>
    simp only [Expr.tokensAt_zero] at ihf ihb ⊢
    have hall := ((Unwraps.same [.letKw, .recKw, .ident name, .equal, .funKw, .ident param, .arrow])
      |>.append (ihf hts.1.2.2.2.2.2.2.2)).append ((ihb hts.2.2).cons .inKw)
    simpa [Expr.tokens, Token.shortest] using hall
  | @func levels param bs b _ ihb =>
    simp only [Expr.tokensAt_zero] at ihb ⊢
    have hall := (Unwraps.same [.funKw, .ident param, .arrow]).append (ihb hts.2.2.2)
    simpa [Expr.tokens, Token.shortest] using hall
  | above _ h ih => exact (ih hts).trans ((h.spellable hts).unwraps_tokensAt (Nat.le_succ _))

/-! ## Texts -/

/-- The tokens that the lexer gives, without their positions. -/
theorem map_tokenize_of_spells {source : String} {ts : List Token}
    (h : Spells source.toList ts) :
    (tokenize source).map (·.map (·.token)) = .ok (ts ++ [.eof]) := by
  obtain ⟨located, hlocated, hts⟩ := tokenize_of_spells h
  rw [hlocated, ← hts]
  rfl

/-- No text of the expression nests less deeply than the canonical one. -/
theorem Expr.WellFormed.derives_tokens_le {e : Expr} (h : e.WellFormed)
    (hgenuine : ∀ t ∈ e.tokens, t.Genuine) {n : Nat} {ts : List Token}
    (hderives : Derives .expression n ts e) (hts : ∀ t ∈ ts, t.Readable) :
    ∃ m ≤ n, Derives .expression m e.tokens e := by
  have hphrase := hderives.phrase (Nat.le_refl n) hts
  obtain ⟨hnesting, -⟩ := Expr.nestingAt_le_iff.mp hphrase.nestingAt_le
  exact (phrase_tokens h.spellable hnesting).expression.derives hgenuine .expression rfl

/-- The canonical text of an expression has the fewest parentheses. However the expression is
written, the tokens other than parentheses are the same, numbers compared by their values; the
parentheses of the canonical text are left once some pairs are taken away; so there are no more of
them, and no expression stands inside more levels. -/
theorem Expr.text_fewest_parentheses {source : String} {e : Expr}
    (h : Expr.parse source = .ok e) :
    ∃ written canonical : List Token,
      (tokenize source).map (·.map (·.token)) = .ok (written ++ [.eof]) ∧
      (tokenize e.text).map (·.map (·.token)) = .ok (canonical ++ [.eof]) ∧
      canonical.filter (fun t => !t.isParen) =
        (written.map Token.shortest).filter (fun t => !t.isParen) ∧
      Unwraps (written.map Token.shortest) canonical ∧
      canonical.countP Token.isParen ≤ written.countP Token.isParen ∧
      ∃ n m, Derives .expression n written e ∧ Derives .expression m canonical e ∧ m ≤ n := by
  obtain ⟨ts, hspells, hphrase⟩ := parse_eq_ok_iff.mp h
  have hwf := wellFormed_of_parse h
  have htext := spells_text hwf.spellable boundary_nil .nil
  rw [List.append_nil, List.append_nil] at htext
  have hunwraps := hphrase.unwraps hspells.genuine
  rw [tokensAt_zero] at hunwraps
  obtain ⟨n, -, hn⟩ := hphrase.derives hspells.genuine .expression rfl
  obtain ⟨m, hle, hm⟩ := hwf.derives_tokens_le htext.genuine hn (hphrase.readable hspells.genuine)
  refine ⟨ts, e.tokens, map_tokenize_of_spells hspells, map_tokenize_of_spells htext,
    hunwraps.filter_eq, hunwraps, ?_, n, m, hn, hm, hle⟩
  rw [← countP_isParen_map_shortest ts]
  exact hunwraps.countP_le

/-- The expression of `((1 + 02)) * (3)`, which is canonically written `(1 + 2) * 3`. -/
def product : Expr := .binary .mul (.binary .add (.int 1) (.int 2)) (.int 3)

/-- Of the three pairs of parentheses in `((1 + 02)) * (3)`, two are taken away. -/
theorem text_fewest_parentheses_product :
    Expr.parse "((1 + 02)) * (3)" = .ok product ∧
      ∃ written canonical : List Token,
        (tokenize "((1 + 02)) * (3)").map (·.map (·.token)) = .ok (written ++ [.eof]) ∧
        (tokenize product.text).map (·.map (·.token)) = .ok (canonical ++ [.eof]) ∧
        Unwraps (written.map Token.shortest) canonical := by
  have hparse : Expr.parse "((1 + 02)) * (3)" = .ok product :=
    eq_ok_of_toOption (by decide +kernel)
  obtain ⟨written, canonical, hwritten, hcanonical, -, hunwraps, -⟩ :=
    Expr.text_fewest_parentheses hparse
  exact ⟨hparse, written, canonical, hwritten, hcanonical, hunwraps⟩

end BigStep
