import BigStep.Proofs.Expr.Tracking

/-!
# Running out of levels

Tokens that lead to an expression position inside more levels than a parser has left make it fail
there, whatever follows.

* `Sinks p ts`: on these tokens, the parser runs out of levels.
* `sinks_of_reaches`: by induction on the number of tokens. Where a phrase stands before the
  position, either the parser takes it or it sinks in the phrase already.
-/

namespace BigStep

/-- A production goes at most one level further in, and then to an expression. -/
theorem Enters.level {nt inner : Nonterminal} {ts : List Token} {d : Nat}
    (h : Enters nt ts inner d) : d = 0 ∨ d = 1 ∧ inner = .expression := by
  cases h with
  | argument | right | operand => exact .inl rfl
  | _ => exact .inr ⟨rfl, rfl⟩

/-- An expression position further in has tokens before it. -/
theorem Reaches.ne_nil {nt : Nonterminal} {ts : List Token} {k : Nat}
    (h : Reaches nt ts .expression k) (hk : 0 < k) : ts ≠ [] := by
  generalize hinner : Nonterminal.expression = inner at h
  induction h with
  | here => exact absurd hk (Nat.lt_irrefl 0)
  | enter h _ ih =>
    cases h with
    | argument | operand =>
      have := ih (by omega) hinner
      simp [this]
    | _ => simp

namespace Parser

/-- The parser runs out of levels at one of the tokens that are used up, or at the next one. -/
def SinksIn {α : Type} (p : Parser α) (used rest : List Located) : Prop :=
  ∃ front back t, used = front ++ back ∧
    p (used ++ rest) = .error (.nestingTooDeep (((back ++ rest).head?.map (·.position)).getD 0)) t

/-- The parser runs out of levels on the tokens, whatever follows. -/
def Sinks {α : Type} (p : Parser α) (ts : List Token) : Prop :=
  ∀ used rest : List Located, used.map (·.token) = ts → SinksIn p used rest

section

variable {α β : Type} {p q : Parser α} {used rest : List Located}

theorem SinksIn.bind (h : SinksIn p used rest) (f : α → Parser β) :
    SinksIn (p >>= f) used rest := by
  obtain ⟨front, back, t, hused, herr⟩ := h
  exact ⟨front, back, t, hused, bind_of_error herr⟩

/-- A parser that takes some tokens and goes on as another one. -/
theorem SinksIn.append {first : List Located} (h : SinksIn p used rest)
    (hq : q (first ++ (used ++ rest)) = p (used ++ rest)) : SinksIn q (first ++ used) rest := by
  obtain ⟨front, back, t, rfl, herr⟩ := h
  refine ⟨first ++ front, back, t, (List.append_assoc ..).symm, ?_⟩
  rw [List.append_assoc, hq]
  exact herr

end

namespace Sinks

section

variable {α β : Type} {p q : Parser α} {ts us : List Token}

theorem append (h : Sinks p ts) (us : List Token) : Sinks p (ts ++ us) := by
  intro used rest hused
  obtain ⟨vs, ws, rfl, hvs, -⟩ := List.map_eq_append_iff.mp hused
  obtain ⟨front, back, t, rfl, herr⟩ := h vs (ws ++ rest) hvs
  exact ⟨front, back ++ ws, t, by simp, by simpa using herr⟩

theorem bind (h : Sinks p ts) (f : α → Parser β) : Sinks (p >>= f) ts :=
  fun used rest hused => (h used rest hused).bind f

/-- A parser that takes one token and goes on as another one. -/
theorem cons {t : Token} (h : Sinks p ts)
    (hq : ∀ position rest, q (⟨t, position⟩ :: rest) = p rest) : Sinks q (t :: ts) := by
  intro used rest hused
  obtain ⟨⟨_, position⟩, vs, rfl, rfl, hvs⟩ := List.map_eq_cons_iff.mp hused
  exact @SinksIn.append _ _ _ _ _ [_] (h vs rest hvs) (hq position _)

theorem expect {t : Token} {f : Unit → Parser α} (h : Sinks (f ()) ts) :
    Sinks (Parser.expect t >>= f) (t :: ts) :=
  h.cons fun position _ => bind_of_ok (expect_eq_ok.mpr ⟨position, rfl⟩)

theorem identifier {name : String} {f : String → Parser α} (h : Sinks (f name) ts) :
    Sinks (Parser.identifier >>= f) (.ident name :: ts) :=
  h.cons fun position _ => bind_of_ok (identifier_eq_ok.mpr ⟨position, rfl⟩)

end

section

variable {inner : Parser Expr} {ts us : List Token}

/-- Where a part is followed by a token that ends it, the parser takes the part or sinks in it. -/
theorem part {e : Expr} {f : Expr → Parser Expr} {t : Token}
    (hpart : Takes inner ts e ∨ Sinks inner ts) (h : Sinks (f e) (t :: us))
    (hatom : t.startsAtom = false) (hop : t.operator? = none) :
    Sinks (inner >>= f) (ts ++ t :: us) := by
  cases hpart with
  | inr hsinks => exact (hsinks.bind f).append _
  | inl htakes =>
    intro used rest hused
    obtain ⟨vs, ws, rfl, hvs, hws⟩ := List.map_eq_append_iff.mp hused
    have hsinks := h ws rest hws
    obtain ⟨⟨_, q⟩, xs, rfl, rfl, -⟩ := List.map_eq_cons_iff.mp hws
    exact hsinks.append (bind_of_ok (htakes vs _ hvs (stops_cons hatom hop)))

/-- The next token is no keyword, for otherwise the comparison would have refused it. -/
theorem form (h : Sinks (comparison inner) ts) : Sinks (form inner) ts := by
  intro used rest hused
  obtain ⟨front, back, t, hfront, herr⟩ := h used rest hused
  refine ⟨front, back, t, hfront, ?_⟩
  cases hs : used ++ rest with
  | nil => rwa [hs] at herr
  | cons l s =>
    rw [hs] at herr
    obtain ⟨token, q⟩ := l
    cases token with
    | ifKw | letKw | funKw => cases herr
    | _ => exact herr

theorem binding {name : String} (h : Sinks (letForm inner) (.ident name :: ts)) :
    Sinks (binding inner) (.ident name :: ts) := by
  intro used rest hused
  obtain ⟨⟨_, position⟩, vs, rfl, rfl, hvs⟩ := List.map_eq_cons_iff.mp hused
  exact h _ rest hused

/-- The next token starts an atom, for otherwise the primary would have refused it. -/
theorem argument? (h : Sinks (primary inner) ts) (f : Expr) : Sinks (argument? inner f) ts := by
  intro used rest hused
  obtain ⟨front, back, t, hfront, herr⟩ := h used rest hused
  refine ⟨front, back, t, hfront, ?_⟩
  cases hs : used ++ rest with
  | nil =>
    rw [hs] at herr
    cases herr
  | cons l s =>
    rw [hs] at herr
    cases hl : l.token.startsAtom with
    | true => exact (argument?_eq_bind hl).trans (bind_of_error herr)
    | false =>
      rw [primary_of_not hl] at herr
      cases herr

end

end Sinks

/-- Fewer tokens than `bound` that lead further in than the parser can go make it sink. -/
def SinksBelow (bound : Nat) : Prop :=
  ∀ {nt : Nonterminal} {ts : List Token} {k room : Nat}, ts.length < bound →
    Reaches nt ts .expression k → room < k → (∀ t ∈ ts, t.Readable) →
    Sinks (layerParser (expression room) nt.layer) ts

section

variable {nt : Nonterminal} {n room bound : Nat} {ts us : List Token} {e : Expr}

theorem sinks_zero (ts : List Token) : Sinks (expression 0) ts :=
  fun used _ _ => ⟨[], used, _, rfl, rfl⟩

/-- A phrase inside a construct. -/
theorem takes_or_sinks (ih : SinksBelow bound) (hlt : ts.length < bound)
    (h : Derives .expression n ts e) (hread : ∀ t ∈ ts, t.Readable) :
    Takes (expression room) ts e ∨ Sinks (expression room) ts := by
  cases room with
  | zero => exact .inr (sinks_zero ts)
  | succ room =>
    rcases (by omega : n ≤ room ∨ room < n) with hn | hn
    · exact .inl (takes_expression (layerParser_of_phrase (h.phrase hn hread)))
    · obtain ⟨front, back, rfl, hreaches⟩ := h.passes hn
      rw [List.forall_mem_append] at hread
      rw [List.length_append] at hlt
      exact .inr ((ih (by omega) hreaches (Nat.lt_succ_self room) hread.1).append back)

/-- The phrase that a loop has read so far. -/
theorem sinks_of_step (ih : SinksBelow bound) (hlt : ts.length < bound) (h : Derives nt n ts e)
    (hread : ∀ t ∈ ts, t.Readable) (hnt : nt ≠ .primary)
    (hstops : ∀ used rest : List Located, used.map (·.token) = us →
      Stops (nt.layer + 1) (used ++ rest))
    (hstep : Sinks (layerStep (expression room) nt.layer e) us) :
    Sinks (layerParser (expression room) nt.layer) (ts ++ us) := by
  rcases (by omega : n ≤ room ∨ room < n) with hn | hn
  · intro used rest hused
    obtain ⟨vs, ws, rfl, hvs, hws⟩ := List.map_eq_append_iff.mp hused
    have hlayer : nt.layer ≤ 4 := by cases nt <;> first | decide | exact absurd rfl hnt
    have hloop := progresses_layerStep (readsInside_expression room) hlayer
    obtain ⟨front, back, t, hfront, herr⟩ := hstep ws rest hws
    have hsinks : SinksIn (repeatFrom (layerStep (expression room) nt.layer) e) ws rest :=
      ⟨front, back, t, hfront, hloop.repeatFrom_of_error herr⟩
    exact hsinks.append (layerParser_of_phrase (h.phrase hn hread) hvs (hstops ws rest hws))
  · obtain ⟨front, back, rfl, hreaches⟩ := h.passes hn
    rw [List.forall_mem_append] at hread
    rw [List.length_append] at hlt
    rw [List.append_assoc]
    exact (ih (by omega) hreaches (Nat.lt_succ_self room) hread.1).append _

/-- One level further in there is one level less. -/
theorem sinks_expression {k : Nat} (hk : room < 1 + k)
    (h : ∀ {m}, m < k → Sinks (layerParser (expression m) 0) us) : Sinks (expression room) us := by
  cases room with
  | zero => exact sinks_zero us
  | succ m => exact h (by omega)

/-- Behind the tokens of a construct, one level further in. What stands before in the construct is
taken, or else the parser sinks there. -/
theorem sinks_of_enters_level {mid : Nonterminal} {d : Nat} (ih : SinksBelow bound)
    (hlt : (ts ++ us).length ≤ bound) (he : Enters nt ts mid d) (hd : d = 1)
    (h : Sinks (expression room) us) (hread : ∀ t ∈ ts, t.Readable) :
    Sinks (layerParser (expression room) nt.layer) (ts ++ us) := by
  cases he with simp only [List.length_append, List.length_cons, List.forall_mem_append,
      List.forall_mem_cons] at hlt hread
  | condition =>
    have hform : Sinks (condForm (expression room)) us := h.bind _
    exact hform.cons fun _ _ => rfl
  | @thenBranch n cs c hc =>
    have hcondition := @takes_or_sinks _ room _ _ _ ih (by omega) hc hread.1.2
    have hform : Sinks (condForm (expression room)) (cs ++ .thenKw :: us) :=
      .part hcondition (.expect (h.bind _)) rfl rfl
    simpa using hform.cons fun _ _ => rfl
  | @elseBranch m n cs ts c t hc ht =>
    have hcondition := @takes_or_sinks _ room _ _ _ ih (by omega) hc hread.1.1.2
    have hthen := @takes_or_sinks _ room _ _ _ ih (by omega) ht hread.1.2.2
    have hform : Sinks (condForm (expression room)) (cs ++ .thenKw :: (ts ++ .elseKw :: us)) :=
      .part hcondition (.expect (.part hthen (.expect (h.bind _)) rfl rfl)) rfl rfl
    simpa using hform.cons fun _ _ => rfl
  | @recValue name param =>
    have hform : Sinks (letRecForm (expression room))
        (.ident name :: .equal :: .funKw :: .ident param :: .arrow :: us) :=
      .identifier (.expect (.expect (.identifier (.expect (h.bind _)))))
    exact (hform.cons fun _ _ => rfl : Sinks (binding _) (.recKw :: _)).cons fun _ _ => rfl
  | @recBody n name param fs f hf =>
    have hvalue := @takes_or_sinks _ room _ _ _ ih (by omega) hf hread.1.2.2.2.2.2.2.2
    have hform : Sinks (letRecForm (expression room))
        (.ident name :: .equal :: .funKw :: .ident param :: .arrow :: (fs ++ .inKw :: us)) :=
      .identifier (.expect (.expect (.identifier (.expect
        (.part hvalue (.expect (h.bind _)) rfl rfl)))))
    simpa using (hform.cons fun _ _ => rfl : Sinks (binding _) (.recKw :: _)).cons fun _ _ => rfl
  | @letValue name =>
    have hform : Sinks (letForm (expression room)) (.ident name :: .equal :: us) :=
      .identifier (.expect (h.bind _))
    exact hform.binding.cons fun _ _ => rfl
  | @letBody n name vs v hv =>
    have hvalue := @takes_or_sinks _ room _ _ _ ih (by omega) hv hread.1.2.2.2
    have hform : Sinks (letForm (expression room)) (.ident name :: .equal :: (vs ++ .inKw :: us)) :=
      .identifier (.expect (.part hvalue (.expect (h.bind _)) rfl rfl))
    simpa using hform.binding.cons fun _ _ => rfl
  | @funcBody param =>
    have hform : Sinks (funcForm (expression room)) (.ident param :: .arrow :: us) :=
      .identifier (.expect (h.bind _))
    exact hform.cons fun _ _ => rfl
  | paren => exact (h.bind _).cons fun _ _ => rfl
  | argument | right | operand => cases hd

/-- At an operand, on the same level. -/
theorem sinks_of_enters_operand {mid : Nonterminal} {d : Nat} (ih : SinksBelow bound)
    (hlt : (ts ++ us).length ≤ bound) (he : Enters nt ts mid d) (hd : d = 0) (hus : us ≠ [])
    (h : Sinks (layerParser (expression room) mid.layer) us) (hread : ∀ t ∈ ts, t.Readable) :
    Sinks (layerParser (expression room) nt.layer) (ts ++ us) := by
  have hpos : 0 < us.length := List.length_pos_iff.mpr hus
  rw [List.length_append] at hlt
  cases he with
  | argument hf =>
    have hstep : ∀ f, Sinks (argument? (expression room) f) us := Sinks.argument? h
    refine sinks_of_step ih (by omega) hf hread nofun (fun _ _ _ l _ => ?_) (hstep _)
    exact Token.not_continues_of_five_le (Nat.le_refl 5) l.token
  | @right op n ls l hl =>
    have hlayer := op.layer_nonterminal
    have hne : op.nonterminal ≠ .primary := by cases op <;> nofun
    rw [Nonterminal.layer_operand hne] at h
    have hstep : Sinks (layerStep (expression room) op.nonterminal.layer l) (op.token :: us) := by
      rw [layerStep, if_neg (by cases op <;> decide)]
      exact (h.bind _).cons fun _ _ =>
        operation?_eq_bind (Token.operator?_token op) (mem_layerOperators.mpr hlayer.symm)
    rw [List.length_append] at hlt
    rw [List.append_assoc]
    refine sinks_of_step ih (by omega) hl (List.forall_mem_append.mp hread).1 hne ?_ hstep
    intro used rest hused k hk
    obtain ⟨⟨_, position⟩, vs, rfl, rfl, -⟩ := List.map_eq_cons_iff.mp hused
    cases hk
    exact Token.not_continues_token (by omega)
  | @operand _ hnt =>
    rw [Nonterminal.layer_operand hnt] at h
    by_cases h₀ : nt = .expression
    · subst h₀
      exact h.form
    · have hlayer : 0 < nt.layer ∧ nt.layer < 5 := by
        cases nt <;> first | decide | contradiction
      rw [layerParser_eq hlayer.1 hlayer.2]
      exact h.bind _
  | _ => cases hd

end

/-- The outer induction is on the number of tokens, for the phrases that stand before the position;
the inner one follows the way to it. -/
theorem sinksBelow (bound : Nat) : SinksBelow bound := by
  induction bound with
  | zero => exact fun h => absurd h (Nat.not_lt_zero _)
  | succ bound ih =>
    intro nt ts k room hlt h hk hread
    generalize hinner : Nonterminal.expression = inner at h
    induction h generalizing room with
    | here => exact absurd hk (Nat.not_lt_zero room)
    | @enter nt mid inner ts us d k he h ihus =>
      subst hinner
      rw [List.forall_mem_append] at hread
      have hle := Nat.le_of_lt_succ hlt
      rw [List.length_append] at hlt
      rcases he.level with rfl | ⟨rfl, rfl⟩
      · rw [Nat.zero_add] at hk
        have hus := h.ne_nil (Nat.zero_lt_of_lt hk)
        exact sinks_of_enters_operand ih hle he rfl hus (ihus (by omega) hk hread.2 rfl) hread.1
      · have hinner := sinks_expression hk fun hm => ihus (by omega) hm hread.2 rfl
        exact sinks_of_enters_level ih hle he rfl hinner hread.1

/-- Tokens that lead to an expression inside more levels than there are left. -/
theorem sinks_of_reaches {nt : Nonterminal} {ts : List Token} {k room : Nat}
    (h : Reaches nt ts .expression k) (hk : room < k) (hread : ∀ t ∈ ts, t.Readable) :
    Sinks (layerParser (expression room) nt.layer) ts :=
  sinksBelow (ts.length + 1) (Nat.lt_succ_self _) h hk hread

end Parser

end BigStep
