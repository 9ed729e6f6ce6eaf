import BigStep.Proofs.Expr.RoundTrip

/-!
# The productions of the grammar

The grammar with its nonterminals by name, without any bound, and how the parser keeps to it.

* `Derives nt n ts e`: the tokens derive the expression from the nonterminal, and `n` is the
  greatest number of levels around an expression in that derivation. Each production of the form
  `X := Y (op Y)*` is folded to the left: `X := Y | X op Y`.
* `Derives.phrase`, `Phrase.derives`: a phrase is a derivation with numbers in range and no more
  than the levels allowed.
* `Derives.unique`: a list of tokens has at most one derivation. Numbers of any size and any number
  of levels can be derived, which the parser does not read. So the tokens are first marked: a number
  becomes a name, and every parenthesis opens a function, which leaves a trace in the expression.
* `Expr.parse_eq_ok_iff_derives`: the parser and the grammar.
-/

namespace BigStep

/-- The nonterminals of the grammar. -/
inductive Nonterminal
  | expression
  | comparison
  | additive
  | multiplicative
  | application
  | primary
  deriving DecidableEq, Repr

/-- The natural number that decimal digits denote. Zeros may lead. -/
def decimalValue (digits : String) : Nat := Nat.ofDigitChars 10 digits.toList 0

/-- The tokens derive the expression from the nonterminal. The number is that of the levels around
the innermost expression: a pair of parentheses and each `if`, `let`, `let rec` and `fun` is a level
for the expressions inside it. -/
inductive Derives : Nonterminal → Nat → List Token → Expr → Prop
  | cond {l m n : Nat} {cs ts es : List Token} {c t e : Expr} (hc : Derives .expression l cs c)
      (ht : Derives .expression m ts t) (he : Derives .expression n es e) :
      Derives .expression (max l (max m n) + 1)
        (.ifKw :: cs ++ .thenKw :: ts ++ .elseKw :: es) (.cond c t e)
  | letRec {m n : Nat} {name param : String} {fs bs : List Token} {f b : Expr}
      (hf : Derives .expression m fs f) (hb : Derives .expression n bs b) :
      Derives .expression (max m n + 1)
        (.letKw :: .recKw :: .ident name :: .equal :: .funKw :: .ident param :: .arrow :: fs ++
          .inKw :: bs)
        (.letRec name param f b)
  | letIn {m n : Nat} {name : String} {vs bs : List Token} {v b : Expr}
      (hv : Derives .expression m vs v) (hb : Derives .expression n bs b) :
      Derives .expression (max m n + 1)
        (.letKw :: .ident name :: .equal :: vs ++ .inKw :: bs) (.letIn name v b)
  | func {n : Nat} {param : String} {bs : List Token} {b : Expr}
      (hb : Derives .expression n bs b) :
      Derives .expression (n + 1) (.funKw :: .ident param :: .arrow :: bs) (.func param b)
  | ofComparison {n : Nat} {ts : List Token} {e : Expr} (h : Derives .comparison n ts e) :
      Derives .expression n ts e
  | less {m n : Nat} {ls rs : List Token} {l r : Expr} (hl : Derives .comparison m ls l)
      (hr : Derives .additive n rs r) :
      Derives .comparison (max m n) (ls ++ .less :: rs) (.binary .less l r)
  | ofAdditive {n : Nat} {ts : List Token} {e : Expr} (h : Derives .additive n ts e) :
      Derives .comparison n ts e
  | plus {m n : Nat} {ls rs : List Token} {l r : Expr} (hl : Derives .additive m ls l)
      (hr : Derives .multiplicative n rs r) :
      Derives .additive (max m n) (ls ++ .plus :: rs) (.binary .add l r)
  | minus {m n : Nat} {ls rs : List Token} {l r : Expr} (hl : Derives .additive m ls l)
      (hr : Derives .multiplicative n rs r) :
      Derives .additive (max m n) (ls ++ .minus :: rs) (.binary .sub l r)
  | ofMultiplicative {n : Nat} {ts : List Token} {e : Expr} (h : Derives .multiplicative n ts e) :
      Derives .additive n ts e
  | times {m n : Nat} {ls rs : List Token} {l r : Expr} (hl : Derives .multiplicative m ls l)
      (hr : Derives .application n rs r) :
      Derives .multiplicative (max m n) (ls ++ .asterisk :: rs) (.binary .mul l r)
  | ofApplication {n : Nat} {ts : List Token} {e : Expr} (h : Derives .application n ts e) :
      Derives .multiplicative n ts e
  | app {m n : Nat} {fs as : List Token} {f a : Expr} (hf : Derives .application m fs f)
      (ha : Derives .primary n as a) : Derives .application (max m n) (fs ++ as) (.app f a)
  | ofPrimary {n : Nat} {ts : List Token} {e : Expr} (h : Derives .primary n ts e) :
      Derives .application n ts e
  | number {digits : String} :
      Derives .primary 0 [.number digits] (.int (decimalValue digits))
  | bool {b : Bool} : Derives .primary 0 [.bool b] (.bool b)
  | var {name : String} : Derives .primary 0 [.ident name] (.var name)
  | paren {n : Nat} {ts : List Token} {e : Expr} (h : Derives .expression n ts e) :
      Derives .primary (n + 1) (.openParen :: ts ++ [.closeParen]) e

/-- The layer of the phrases that a nonterminal derives. -/
def Nonterminal.layer : Nonterminal → Nat
  | expression => 0
  | comparison => 1
  | additive => 2
  | multiplicative => 3
  | application => 4
  | primary => 5

/-! ## Derivations and phrases -/

/-- A number is one that the parser reads as its value. -/
def Token.Readable : Token → Prop
  | number digits => Integer.ofText? digits.toList = some (decimalValue digits : Int)
  | _ => True

/-- A derivation is a phrase if its levels are allowed and its numbers can be read. -/
theorem Derives.phrase {nt : Nonterminal} {n levels : Nat} {ts : List Token} {e : Expr}
    (h : Derives nt n ts e) (hn : n ≤ levels) (hts : ∀ t ∈ ts, t.Readable) :
    Phrase levels nt.layer ts e := by
  induction h generalizing levels with
    try simp only [List.forall_mem_append, List.forall_mem_cons, Nat.max_le] at hn hts
  | number => exact .number hts.1
  | bool => exact .bool
  | var => exact .var
  | ofComparison _ ih | ofAdditive _ ih | ofMultiplicative _ ih | ofApplication _ ih
  | ofPrimary _ ih => exact .above (by decide) (ih hn hts)
  | app _ _ ihf iha => exact .app (ihf hn.1 hts.1) (iha hn.2 hts.2)
  | less _ _ ihl ihr =>
    exact @Phrase.binary levels .less _ _ _ _ (ihl hn.1 hts.1) (ihr hn.2 hts.2.2)
  | plus _ _ ihl ihr =>
    exact @Phrase.binary levels .add _ _ _ _ (ihl hn.1 hts.1) (ihr hn.2 hts.2.2)
  | minus _ _ ihl ihr =>
    exact @Phrase.binary levels .sub _ _ _ _ (ihl hn.1 hts.1) (ihr hn.2 hts.2.2)
  | times _ _ ihl ihr =>
    exact @Phrase.binary levels .mul _ _ _ _ (ihl hn.1 hts.1) (ihr hn.2 hts.2.2)
  | paren _ ih =>
    obtain ⟨m, rfl⟩ : ∃ m, levels = m + 1 := ⟨levels - 1, by omega⟩
    exact .paren (ih (by omega) hts.1.2)
  | func _ ih =>
    obtain ⟨m, rfl⟩ : ∃ m, levels = m + 1 := ⟨levels - 1, by omega⟩
    exact .func (ih (by omega) hts.2.2.2)
  | letIn _ _ ihv ihb =>
    obtain ⟨m, rfl⟩ : ∃ m, levels = m + 1 := ⟨levels - 1, by omega⟩
    exact .letIn (ihv (by omega) hts.1.2.2.2) (ihb (by omega) hts.2.2)
  | letRec _ _ ihf ihb =>
    obtain ⟨m, rfl⟩ : ∃ m, levels = m + 1 := ⟨levels - 1, by omega⟩
    exact .letRec (ihf (by omega) hts.1.2.2.2.2.2.2.2) (ihb (by omega) hts.2.2)
  | cond _ _ _ ihc iht ihe =>
    obtain ⟨m, rfl⟩ : ∃ m, levels = m + 1 := ⟨levels - 1, by omega⟩
    exact .cond (ihc (by omega) hts.1.1.2) (iht (by omega) hts.1.2.2) (ihe (by omega) hts.2.2)

/-- Digits are read as their value just if that is in range. -/
theorem Integer.ofText?_eq_some_iff {digits : String} {n : Int} (hne : digits.toList ≠ [])
    (hdigits : digits.toList.all Char.isDigit = true) :
    ofText? digits.toList = some n ↔
      n = (decimalValue digits : Int) ∧ decimalValue digits ≤ 9223372036854775807 := by
  have hread : Text.Decimal.digits? digits.toList = some (decimalValue digits) :=
    Text.Decimal.digits?_eq_some_iff.mpr ⟨hne, hdigits, rfl⟩
  rw [ofText?, Text.Decimal.signed?_of_isDigit hdigits, hread]
  simp only [Option.map_some, Option.bind_some, checked_eq_some_iff, InRange, least, greatest,
    Int.ofNat_eq_natCast]
  constructor
  · rintro ⟨⟨-, hle⟩, rfl⟩
    exact ⟨rfl, by omega⟩
  · rintro ⟨rfl, hle⟩
    exact ⟨⟨by omega, by omega⟩, rfl⟩

/-- A number from a text can be read just if its value is in range. -/
theorem Token.Genuine.readable_iff {digits : String} (h : (Token.number digits).Genuine) :
    (Token.number digits).Readable ↔ decimalValue digits ≤ 9223372036854775807 := by
  rw [Readable, Integer.ofText?_eq_some_iff h.1 h.2]
  exact and_iff_right rfl

theorem Operator.readable_token (op : Operator) : op.token.Readable := by
  cases op <;> trivial

/-- The numbers of a phrase can be read. -/
theorem Phrase.readable {levels layer : Nat} {ts : List Token} {e : Expr}
    (h : Phrase levels layer ts e) (hts : ∀ t ∈ ts, t.Genuine) : ∀ t ∈ ts, t.Readable := by
  induction h with
    try simp only [List.forall_mem_append, List.forall_mem_cons] at hts ⊢
  | number h =>
    obtain ⟨rfl, -⟩ := (Integer.ofText?_eq_some_iff hts.1.1 hts.1.2).mp h
    exact ⟨h, by simp⟩
  | bool | var => exact ⟨trivial, by simp⟩
  | binary _ _ ihl ihr => exact ⟨ihl hts.1, Operator.readable_token _, ihr hts.2.2⟩
  | above _ _ ih => exact ih hts
  | paren | app | cond | letIn | letRec | func => simp_all [Token.Readable]

/-- A phrase is a derivation with no more than its levels. -/
theorem Phrase.derives {levels layer : Nat} {ts : List Token} {e : Expr}
    (h : Phrase levels layer ts e) (hts : ∀ t ∈ ts, t.Genuine) (nt : Nonterminal)
    (hnt : nt.layer = layer) : ∃ n ≤ levels, Derives nt n ts e := by
  induction h generalizing nt with
    try simp only [List.forall_mem_append, List.forall_mem_cons] at hts
  | number h =>
    cases nt <;> cases hnt
    obtain ⟨rfl, -⟩ := (Integer.ofText?_eq_some_iff hts.1.1 hts.1.2).mp h
    exact ⟨0, Nat.zero_le _, .number⟩
  | bool =>
    cases nt <;> cases hnt
    exact ⟨0, Nat.zero_le _, .bool⟩
  | var =>
    cases nt <;> cases hnt
    exact ⟨0, Nat.zero_le _, .var⟩
  | paren _ ih =>
    cases nt <;> cases hnt
    obtain ⟨n, hn, h⟩ := ih hts.1.2 .expression rfl
    exact ⟨n + 1, by omega, .paren h⟩
  | app _ _ ihf iha =>
    cases nt <;> cases hnt
    obtain ⟨m, hm, hf⟩ := ihf hts.1 .application rfl
    obtain ⟨n, hn, ha⟩ := iha hts.2 .primary rfl
    exact ⟨max m n, by omega, .app hf ha⟩
  | @binary levels op ls rs l r _ _ ihl ihr =>
    cases op with
    | less =>
      cases nt <;> cases hnt
      obtain ⟨m, hm, hl⟩ := ihl hts.1 .comparison rfl
      obtain ⟨n, hn, hr⟩ := ihr hts.2.2 .additive rfl
      exact ⟨max m n, by omega, .less hl hr⟩
    | add =>
      cases nt <;> cases hnt
      obtain ⟨m, hm, hl⟩ := ihl hts.1 .additive rfl
      obtain ⟨n, hn, hr⟩ := ihr hts.2.2 .multiplicative rfl
      exact ⟨max m n, by omega, .plus hl hr⟩
    | sub =>
      cases nt <;> cases hnt
      obtain ⟨m, hm, hl⟩ := ihl hts.1 .additive rfl
      obtain ⟨n, hn, hr⟩ := ihr hts.2.2 .multiplicative rfl
      exact ⟨max m n, by omega, .minus hl hr⟩
    | mul =>
      cases nt <;> cases hnt
      obtain ⟨m, hm, hl⟩ := ihl hts.1 .multiplicative rfl
      obtain ⟨n, hn, hr⟩ := ihr hts.2.2 .application rfl
      exact ⟨max m n, by omega, .times hl hr⟩
  | cond _ _ _ ihc iht ihe =>
    cases nt <;> cases hnt
    obtain ⟨l, hl, hc⟩ := ihc hts.1.1.2 .expression rfl
    obtain ⟨m, hm, ht⟩ := iht hts.1.2.2 .expression rfl
    obtain ⟨n, hn, he⟩ := ihe hts.2.2 .expression rfl
    exact ⟨max l (max m n) + 1, by omega, .cond hc ht he⟩
  | letIn _ _ ihv ihb =>
    cases nt <;> cases hnt
    obtain ⟨m, hm, hv⟩ := ihv hts.1.2.2.2 .expression rfl
    obtain ⟨n, hn, hb⟩ := ihb hts.2.2 .expression rfl
    exact ⟨max m n + 1, by omega, .letIn hv hb⟩
  | letRec _ _ ihf ihb =>
    cases nt <;> cases hnt
    obtain ⟨m, hm, hf⟩ := ihf hts.1.2.2.2.2.2.2.2 .expression rfl
    obtain ⟨n, hn, hb⟩ := ihb hts.2.2 .expression rfl
    exact ⟨max m n + 1, by omega, .letRec hf hb⟩
  | func _ ih =>
    cases nt <;> cases hnt
    obtain ⟨n, hn, hb⟩ := ih hts.2.2.2 .expression rfl
    exact ⟨n + 1, by omega, .func hb⟩
  | above hk _ ih =>
    cases nt with
    | expression =>
      obtain ⟨n, hn, h⟩ := ih hts .comparison (by rw [← hnt]; rfl)
      exact ⟨n, hn, .ofComparison h⟩
    | comparison =>
      obtain ⟨n, hn, h⟩ := ih hts .additive (by rw [← hnt]; rfl)
      exact ⟨n, hn, .ofAdditive h⟩
    | additive =>
      obtain ⟨n, hn, h⟩ := ih hts .multiplicative (by rw [← hnt]; rfl)
      exact ⟨n, hn, .ofMultiplicative h⟩
    | multiplicative =>
      obtain ⟨n, hn, h⟩ := ih hts .application (by rw [← hnt]; rfl)
      exact ⟨n, hn, .ofApplication h⟩
    | application =>
      obtain ⟨n, hn, h⟩ := ih hts .primary (by rw [← hnt]; rfl)
      exact ⟨n, hn, .ofPrimary h⟩
    | primary => exact absurd hk (by rw [← hnt]; decide)

/-! ## One derivation at most -/

/-- The tokens that stand for a token once it is marked. A number and a name become names that tell
which of the two they were, and a parenthesis opens a function of no name. -/
def Token.marked : Token → List Token
  | number digits => [.ident ("n" ++ digits)]
  | ident name => [.ident ("v" ++ name)]
  | openParen => [.openParen, .funKw, .ident "", .arrow]
  | t => [t]

namespace Expr

/-- A name without its mark. -/
def unmarkedName (name : String) : String := String.ofList name.toList.tail

/-- The expression of the tokens from which a marked one was made. -/
def unmarked : Expr → Expr
  | int n => .int n
  | bool b => .bool b
  | var name =>
    if name.toList.head? = some 'n' then .int (decimalValue (unmarkedName name))
    else .var (unmarkedName name)
  | binary op left right => .binary op left.unmarked right.unmarked
  | cond condition thenBranch elseBranch =>
    .cond condition.unmarked thenBranch.unmarked elseBranch.unmarked
  | letIn name value body => .letIn (unmarkedName name) value.unmarked body.unmarked
  | letRec name param functionBody body =>
    .letRec (unmarkedName name) (unmarkedName param) functionBody.unmarked body.unmarked
  | func param body => if param = "" then body.unmarked else .func (unmarkedName param) body.unmarked
  | app function argument => .app function.unmarked argument.unmarked

/-- The levels of the tokens from which a marked expression was made. -/
def levels : Expr → Nat
  | int _ => 0
  | bool _ => 0
  | var _ => 0
  | binary _ left right => max left.levels right.levels
  | cond condition thenBranch elseBranch =>
    max condition.levels (max thenBranch.levels elseBranch.levels) + 1
  | letIn _ value body => max value.levels body.levels + 1
  | letRec _ _ functionBody body => max functionBody.levels body.levels + 1
  | func _ body => body.levels + 1
  | app function argument => max function.levels argument.levels

theorem unmarkedName_name (name : String) : unmarkedName ("v" ++ name) = name := by
  simp [unmarkedName]

theorem unmarkedName_number (digits : String) : unmarkedName ("n" ++ digits) = digits := by
  simp [unmarkedName]

end Expr

/-- The marked tokens of a derivation have one too, and its expression tells both the expression and
the levels of the first. -/
theorem Derives.marked {nt : Nonterminal} {n : Nat} {ts : List Token} {e : Expr}
    (h : Derives nt n ts e) :
    ∃ m e', Derives nt m (ts.flatMap Token.marked) e' ∧ e'.unmarked = e ∧ e'.levels = n := by
  induction h with
  | number => exact ⟨_, _, .var, by simp [Expr.unmarked, Expr.unmarkedName_number], rfl⟩
  | var => exact ⟨_, _, .var, by simp [Expr.unmarked, Expr.unmarkedName_name], rfl⟩
  | bool => exact ⟨_, _, .bool, rfl, rfl⟩
  | ofComparison _ ih =>
    obtain ⟨m, e', h, he⟩ := ih
    exact ⟨m, e', .ofComparison h, he⟩
  | ofAdditive _ ih =>
    obtain ⟨m, e', h, he⟩ := ih
    exact ⟨m, e', .ofAdditive h, he⟩
  | ofMultiplicative _ ih =>
    obtain ⟨m, e', h, he⟩ := ih
    exact ⟨m, e', .ofMultiplicative h, he⟩
  | ofApplication _ ih =>
    obtain ⟨m, e', h, he⟩ := ih
    exact ⟨m, e', .ofApplication h, he⟩
  | ofPrimary _ ih =>
    obtain ⟨m, e', h, he⟩ := ih
    exact ⟨m, e', .ofPrimary h, he⟩
  | app _ _ ihf iha =>
    obtain ⟨_, _, hf, rfl, rfl⟩ := ihf
    obtain ⟨_, _, ha, rfl, rfl⟩ := iha
    exact ⟨_, _, by simpa using hf.app ha, rfl, rfl⟩
  | less _ _ ihl ihr =>
    obtain ⟨_, _, hl, rfl, rfl⟩ := ihl
    obtain ⟨_, _, hr, rfl, rfl⟩ := ihr
    exact ⟨_, _, by simpa [Token.marked] using hl.less hr, rfl, rfl⟩
  | plus _ _ ihl ihr =>
    obtain ⟨_, _, hl, rfl, rfl⟩ := ihl
    obtain ⟨_, _, hr, rfl, rfl⟩ := ihr
    exact ⟨_, _, by simpa [Token.marked] using hl.plus hr, rfl, rfl⟩
  | minus _ _ ihl ihr =>
    obtain ⟨_, _, hl, rfl, rfl⟩ := ihl
    obtain ⟨_, _, hr, rfl, rfl⟩ := ihr
    exact ⟨_, _, by simpa [Token.marked] using hl.minus hr, rfl, rfl⟩
  | times _ _ ihl ihr =>
    obtain ⟨_, _, hl, rfl, rfl⟩ := ihl
    obtain ⟨_, _, hr, rfl, rfl⟩ := ihr
    exact ⟨_, _, by simpa [Token.marked] using hl.times hr, rfl, rfl⟩
  | paren _ ih =>
    obtain ⟨_, e', h, rfl, rfl⟩ := ih
    have hparen := (@Derives.func _ "" _ _ h).paren
    exact ⟨_, .func "" e', by simpa [Token.marked] using hparen, rfl, rfl⟩
  | func _ ih =>
    obtain ⟨_, _, h, rfl, rfl⟩ := ih
    exact ⟨_, _, by simpa [Token.marked] using h.func,
      by simp [Expr.unmarked, Expr.unmarkedName_name], rfl⟩
  | letIn _ _ ihv ihb =>
    obtain ⟨_, _, hv, rfl, rfl⟩ := ihv
    obtain ⟨_, _, hb, rfl, rfl⟩ := ihb
    exact ⟨_, _, by simpa [Token.marked] using hv.letIn hb,
      by simp [Expr.unmarked, Expr.unmarkedName_name], rfl⟩
  | letRec _ _ ihf ihb =>
    obtain ⟨_, _, hf, rfl, rfl⟩ := ihf
    obtain ⟨_, _, hb, rfl, rfl⟩ := ihb
    exact ⟨_, _, by simpa [Token.marked] using hf.letRec hb,
      by simp [Expr.unmarked, Expr.unmarkedName_name], rfl⟩
  | cond _ _ _ ihc iht ihe =>
    obtain ⟨_, _, hc, rfl, rfl⟩ := ihc
    obtain ⟨_, _, ht, rfl, rfl⟩ := iht
    obtain ⟨_, _, he, rfl, rfl⟩ := ihe
    exact ⟨_, _, by simpa [Token.marked] using hc.cond ht he, rfl, rfl⟩

/-- There are no numbers among marked tokens. -/
theorem Token.readable_of_mem_marked {t u : Token} (h : u ∈ t.marked) : u.Readable := by
  cases t <;> simp only [marked, List.mem_cons, List.not_mem_nil, or_false] at h
  case openParen => rcases h with rfl | rfl | rfl | rfl <;> trivial
  all_goals subst h; trivial

/-- With nothing behind it, a phrase is what the parser of its layer gives. -/
theorem Phrase.unique {levels layer : Nat} {ts : List Token} {e₁ e₂ : Expr}
    (h₁ : Phrase levels layer ts e₁) (h₂ : Phrase levels layer ts e₂) : e₁ = e₂ := by
  have hgives {e : Expr} (h : Phrase levels layer ts e) :
      Parser.layerParser (Parser.expression levels) layer (ts.map (⟨·, 0⟩)) = .ok e [] := by
    have hused : (ts.map (fun t => Located.mk t 0)).map (·.token) = ts := by
      simp [Function.comp_def]
    have hparse := @Parser.layerParser_of_phrase _ _ _ _ h _ [] hused nofun
    rw [List.append_nil] at hparse
    exact hparse.trans (Parser.repeatFrom_layerStep_of_stops nofun)
  have heq := (hgives h₁).symm.trans (hgives h₂)
  cases heq
  rfl

/-- A list of tokens derives at most one expression from a nonterminal, in one way. -/
theorem Derives.unique {nt : Nonterminal} {n₁ n₂ : Nat} {ts : List Token} {e₁ e₂ : Expr}
    (h₁ : Derives nt n₁ ts e₁) (h₂ : Derives nt n₂ ts e₂) : n₁ = n₂ ∧ e₁ = e₂ := by
  obtain ⟨m₁, e₁', hm₁, rfl, rfl⟩ := h₁.marked
  obtain ⟨m₂, e₂', hm₂, rfl, rfl⟩ := h₂.marked
  have hread : ∀ t ∈ ts.flatMap Token.marked, t.Readable := by
    simp only [List.mem_flatMap, forall_exists_index, and_imp]
    intro u t _ hu
    exact Token.readable_of_mem_marked hu
  have hphrase₁ := hm₁.phrase (Nat.le_max_left m₁ m₂) hread
  have hphrase₂ := hm₂.phrase (Nat.le_max_right m₁ m₂) hread
  obtain rfl := hphrase₁.unique hphrase₂
  exact ⟨rfl, rfl⟩

/-! ## The parser -/

/-- A text spells at most one list of tokens. -/
theorem Spells.unique {cs : List Char} {ts us : List Token} (h : Spells cs ts) (h' : Spells cs us) :
    ts = us := by
  rw [← String.toList_ofList (l := cs)] at h h'
  obtain ⟨located, hlocated, hts⟩ := tokenize_of_spells h
  obtain ⟨located', hlocated', hus⟩ := tokenize_of_spells h'
  rw [hlocated] at hlocated'
  cases hlocated'
  rw [hts] at hus
  exact List.append_cancel_right hus

/-- The tokens of a text up to the end. -/
theorem located_of_tokenize {source : String} {located : List Located}
    (h : tokenize source = .ok located) :
    ∃ before position, located = before ++ [⟨.eof, position⟩] ∧
      Spells source.toList (before.map (·.token)) := by
  obtain ⟨ts, hts, hspells⟩ := spells_of_tokenize h
  obtain ⟨before, last, rfl, rfl, hlast⟩ := List.map_eq_append_iff.mp hts
  obtain ⟨⟨_, position⟩, rfl, rfl⟩ := List.map_eq_singleton_iff.mp hlast
  exact ⟨before, position, rfl, hspells⟩

/-- The parser reads an expression from the tokens of a text just if those before the end derive it,
with every number at most `2^63 - 1` and no expression inside more than 200 levels. Every list of
tokens has at most one derivation. -/
theorem Expr.parse_eq_ok_iff_derives :
    (∀ (source : String) (located : List Located), tokenize source = .ok located →
      ∃ before position, located = before ++ [⟨.eof, position⟩] ∧
        (∀ l ∈ before, l.token ≠ .eof) ∧
        ∀ e : Expr, Expr.parse source = .ok e ↔
          ∃ n ≤ 200, Derives .expression n (before.map (·.token)) e ∧
            ∀ digits, .number digits ∈ before.map (·.token) →
              decimalValue digits ≤ 9223372036854775807) ∧
    ∀ (nt : Nonterminal) (ts : List Token) (n₁ n₂ : Nat) (e₁ e₂ : Expr),
      Derives nt n₁ ts e₁ → Derives nt n₂ ts e₂ → n₁ = n₂ ∧ e₁ = e₂ := by
  refine ⟨fun source located h => ?_, fun _ _ _ _ _ _ h₁ h₂ => h₁.unique h₂⟩
  obtain ⟨before, position, rfl, hspells⟩ := located_of_tokenize h
  have hgenuine := hspells.genuine
  refine ⟨before, position, rfl, fun l hl heof => ?_, fun e => ?_⟩
  · exact hgenuine .eof (List.mem_map.mpr ⟨l, hl, heof⟩)
  rw [parse_eq_ok_iff]
  constructor
  · rintro ⟨ts, hts, hphrase⟩
    obtain rfl := hts.unique hspells
    obtain ⟨n, hn, hderives⟩ := hphrase.derives hgenuine .expression rfl
    refine ⟨n, hn, hderives, fun digits hd => ?_⟩
    exact (hgenuine _ hd).readable_iff.mp (hphrase.readable hgenuine _ hd)
  · rintro ⟨n, hn, hderives, hrange⟩
    refine ⟨_, hspells, hderives.phrase hn fun t ht => ?_⟩
    cases t with
    | number digits => exact (hgenuine _ ht).readable_iff.mpr (hrange digits ht)
    | _ => trivial

/-- A number may be written with leading zeros, and in parentheses. -/
theorem Expr.parse_eq_ok_iff_derives_leading_zeros :
    ∃ before position, tokenize "f (007) - x" = .ok (before ++ [⟨.eof, position⟩]) ∧
      ∃ n ≤ 200, Derives .expression n (before.map (·.token))
        (.binary .sub (.app (.var "f") (.int 7)) (.var "x")) := by
  have htokens : tokenize "f (007) - x" = .ok [⟨.ident "f", 0⟩, ⟨.openParen, 2⟩,
      ⟨.number "007", 3⟩, ⟨.closeParen, 6⟩, ⟨.minus, 8⟩, ⟨.ident "x", 10⟩, ⟨.eof, 11⟩] :=
    eq_ok_of_toOption (by decide +kernel)
  have hparse : Expr.parse "f (007) - x" =
      .ok (.binary .sub (.app (.var "f") (.int 7)) (.var "x")) :=
    eq_ok_of_toOption (by decide +kernel)
  obtain ⟨before, position, hlocated, -, hderives⟩ := parse_eq_ok_iff_derives.1 _ _ htokens
  obtain ⟨n, hn, h, -⟩ := (hderives _).mp hparse
  exact ⟨before, position, hlocated ▸ htokens, n, hn, h⟩

end BigStep
