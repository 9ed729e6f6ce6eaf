import BigStep.Proofs.Expr.Grammar

/-!
# The parser and the grammar

The parser accepts exactly the phrases of the grammar, and gives their expressions.

* `Reads p levels layer`: whatever `p` gives is a phrase of the layer. One lemma `reads_…` for each
  parser, from the primaries to `reads_expression`. A loop is read step by step (`Keeps.iterate`).
* `Takes p ts e`: the parser takes these tokens for this expression. One lemma for each construct
  with a keyword or parentheses.
* `layerParser_of_phrase`: every phrase is given back by the parser of its layer, by induction on
  the phrase. In a loop the phrase is only the part read so far, so the statement says where the
  loop stands behind it and asks of what follows no more than that it ends an operand (`Stops`).
* `statement_eq_ok_iff`, `code_eq_ok_iff`: both directions for whole texts.
-/

namespace BigStep.Parser

/-! ## Results of the basic parsers -/

section Results

variable {α β : Type} {s s' : List Located}

@[simp] theorem bind_eq_ok {p : Parser α} {f : α → Parser β} {b : β} :
    (p >>= f) s = .ok b s' ↔ ∃ a t, p s = .ok a t ∧ f a t = .ok b s' := by
  show (EStateM.bind p f) s = .ok b s' ↔ _
  unfold EStateM.bind
  cases p s with
  | ok a t => simp [and_assoc]
  | error e t => simp

@[simp] theorem pure_eq_ok {a b : α} : (pure a : Parser α) s = .ok b s' ↔ a = b ∧ s = s' := by
  show EStateM.Result.ok a s = .ok b s' ↔ _
  simp

@[simp] theorem throw_ne_ok {e : ParseError} {a : α} :
    (throw e : Parser α) s ≠ .ok a s' := nofun

@[simp] theorem unexpected_ne_ok {expected : Expected} {found : Option Located} {a : α} :
    (unexpected expected found : Parser α) s ≠ .ok a s' := by
  cases found <;> nofun

@[simp] theorem peek?_bind (f : Option Token → Parser β) :
    (peek? >>= f) s = f (s.head?.map (·.token)) s := rfl

@[simp] theorem take?_bind (f : Option Located → Parser β) :
    (take? >>= f) s = f s.head? s.tail := rfl

/-- A given token is taken just if it comes first. -/
@[simp] theorem expect_eq_ok {t : Token} {u : Unit} :
    expect t s = .ok u s' ↔ ∃ position, s = ⟨t, position⟩ :: s' := by
  cases s with
  | nil => simp [expect]
  | cons l ls =>
    obtain ⟨token, position⟩ := l
    by_cases h : token = t <;> simp [expect, h]

/-- A name is taken just if it comes first. -/
@[simp] theorem identifier_eq_ok {name : String} :
    identifier s = .ok name s' ↔ ∃ position, s = ⟨.ident name, position⟩ :: s' := by
  cases s with
  | nil => simp [identifier]
  | cons l ls =>
    obtain ⟨token, position⟩ := l
    cases token <;> simp [identifier]

/-! Each step of a loop goes on or declines by the next token alone. -/

theorem argument?_of_startsAtom {inner : Parser Expr} {f a : Expr} {l : Located}
    (hl : l.token.startsAtom = true) (ha : primary inner (l :: s) = .ok a s') :
    argument? inner f (l :: s) = .ok (some (.app f a)) s' := by
  simp only [argument?, peek?_bind, List.head?_cons, Option.map_some, hl, if_true, bind_eq_ok,
    pure_eq_ok]
  exact ⟨a, s', ha, rfl, rfl⟩

theorem argument?_of_not {inner : Parser Expr} {f : Expr}
    (h : ∀ l ∈ s.head?, l.token.startsAtom = false) : argument? inner f s = .ok none s := by
  cases s with
  | nil => rfl
  | cons l ls =>
    have hl : l.token.startsAtom = false := h l rfl
    simp [argument?, hl]

theorem operation?_of_mem {ops : List Operator} {op : Operator} {operand : Parser Expr}
    {a b : Expr} {l : Located} (hop : l.token.operator? = some op) (hm : op ∈ ops)
    (hb : operand s = .ok b s') :
    operation? ops operand a (l :: s) = .ok (some (.binary op a b)) s' := by
  simp only [operation?, peek?_bind, List.head?_cons, Option.map_some, Option.bind_some, hop, hm,
    if_true, take?_bind, List.tail_cons, bind_eq_ok, pure_eq_ok]
  exact ⟨b, s', hb, rfl, rfl⟩

theorem operation?_of_not {ops : List Operator} {operand : Parser Expr} {a : Expr}
    (h : ∀ l ∈ s.head?, ∀ op, l.token.operator? = some op → op ∉ ops) :
    operation? ops operand a s = .ok none s := by
  cases s with
  | nil => rfl
  | cons l ls =>
    cases hop : l.token.operator? with
    | none => simp [operation?, hop]
    | some op =>
      have hm : op ∉ ops := h l rfl op hop
      simp [operation?, hop, hm]

/-- What a step for an argument can do. -/
theorem argument?_cases {inner : Parser Expr} {f : Expr} {o : Option Expr}
    (h : argument? inner f s = .ok o s') :
    (o = none ∧ s = s') ∨ ∃ a, primary inner s = .ok a s' ∧ o = some (.app f a) := by
  by_cases hs : ∀ l ∈ s.head?, l.token.startsAtom = false
  · rw [argument?_of_not hs] at h
    cases h
    exact .inl ⟨rfl, rfl⟩
  · cases s with
    | nil => simp at hs
    | cons l ls =>
      have hl : l.token.startsAtom = true := by simpa using hs
      simp only [argument?, peek?_bind, List.head?_cons, Option.map_some, hl, if_true, bind_eq_ok,
        pure_eq_ok] at h
      obtain ⟨a, _, ha, rfl, rfl⟩ := h
      exact .inr ⟨a, ha, rfl⟩

/-- What a step for an operation can do. -/
theorem operation?_cases {ops : List Operator} {operand : Parser Expr} {a : Expr}
    {o : Option Expr} (h : operation? ops operand a s = .ok o s') :
    (o = none ∧ s = s') ∨ ∃ l t op b, s = l :: t ∧ l.token.operator? = some op ∧ op ∈ ops ∧
      operand t = .ok b s' ∧ o = some (.binary op a b) := by
  by_cases hs : ∀ l ∈ s.head?, ∀ op, l.token.operator? = some op → op ∉ ops
  · rw [operation?_of_not hs] at h
    cases h
    exact .inl ⟨rfl, rfl⟩
  · cases s with
    | nil => simp at hs
    | cons l ls =>
      obtain ⟨op, hop, hm⟩ : ∃ op, l.token.operator? = some op ∧ op ∈ ops := by simpa using hs
      simp only [operation?, peek?_bind, List.head?_cons, Option.map_some, Option.bind_some, hop,
        hm, if_true, take?_bind, List.tail_cons, bind_eq_ok, pure_eq_ok] at h
      obtain ⟨b, _, hb, rfl, rfl⟩ := h
      exact .inr ⟨l, ls, op, b, rfl, hop, hm, hb, rfl⟩

/-! The form of an expression is chosen by its first tokens. -/

@[simp] theorem form_ifKw (inner : Parser Expr) (p : Nat) :
    form inner (⟨.ifKw, p⟩ :: s) = condForm inner s := rfl

@[simp] theorem form_funKw (inner : Parser Expr) (p : Nat) :
    form inner (⟨.funKw, p⟩ :: s) = funcForm inner s := rfl

@[simp] theorem form_letRec (inner : Parser Expr) (p q : Nat) :
    form inner (⟨.letKw, p⟩ :: ⟨.recKw, q⟩ :: s) = letRecForm inner s := rfl

theorem form_letKw (inner : Parser Expr) (p : Nat)
    (h : s.head?.map (·.token) ≠ some .recKw) :
    form inner (⟨.letKw, p⟩ :: s) = letForm inner s := by
  simp [form]

theorem form_of_startsAtom (inner : Parser Expr) {l : Located} (h : l.token.startsAtom = true) :
    form inner (l :: s) = comparison inner (l :: s) := by
  obtain ⟨token, p⟩ := l
  cases token <;> cases h <;> rfl

theorem form_cases {inner : Parser Expr} {e : Expr} (h : form inner s = .ok e s') :
    (∃ p t, s = ⟨.ifKw, p⟩ :: t ∧ condForm inner t = .ok e s') ∨
    (∃ p t, s = ⟨.letKw, p⟩ :: t ∧ letForm inner t = .ok e s') ∨
    (∃ p q t, s = ⟨.letKw, p⟩ :: ⟨.recKw, q⟩ :: t ∧ letRecForm inner t = .ok e s') ∨
    (∃ p t, s = ⟨.funKw, p⟩ :: t ∧ funcForm inner t = .ok e s') ∨
    comparison inner s = .ok e s' := by
  cases s with
  | nil => exact .inr (.inr (.inr (.inr h)))
  | cons l t =>
    obtain ⟨token, p⟩ := l
    cases token
    case ifKw => exact .inl ⟨p, t, rfl, h⟩
    case funKw => exact .inr (.inr (.inr (.inl ⟨p, t, rfl, h⟩)))
    case letKw =>
      by_cases hrec : t.head?.map (·.token) = some .recKw
      · obtain ⟨⟨token, q⟩, u, rfl⟩ : ∃ l u, t = l :: u := by cases t <;> simp_all
        cases hrec
        exact .inr (.inr (.inl ⟨p, q, u, rfl, h⟩))
      · rw [form_letKw inner p hrec] at h
        exact .inr (.inl ⟨p, t, rfl, h⟩)
    all_goals exact .inr (.inr (.inr (.inr h)))

end Results

/-! ## Every result is a phrase -/

/-- Whatever the parser gives is a phrase of the tokens that it has used up. -/
def Reads (p : Parser Expr) (levels layer : Nat) : Prop :=
  ∀ tokens e rest, p tokens = .ok e rest →
    ∃ used, tokens = used ++ rest ∧ Phrase levels layer (used.map (·.token)) e

/-- The parser reads expressions one level further in, and gives nothing if there is no level
left. -/
def ReadsInside (p : Parser Expr) (levels : Nat) : Prop :=
  ∀ tokens e rest, p tokens = .ok e rest → ∃ m, levels = m + 1 ∧ Reads p m 0

section Sound

variable {inner : Parser Expr} {levels : Nat}

theorem reads_primary (hinner : ReadsInside inner levels) : Reads (primary inner) levels 5 := by
  intro tokens e rest hp
  cases tokens with
  | nil => simp [primary] at hp
  | cons l ls =>
    obtain ⟨token, position⟩ := l
    cases token <;> simp only [primary, take?_bind, List.head?_cons, List.tail_cons] at hp
    case number digits =>
      cases hn : Integer.ofText? digits.toList with
      | none => simp [hn] at hp
      | some n =>
        rw [hn] at hp
        obtain ⟨rfl, rfl⟩ := pure_eq_ok.mp hp
        exact ⟨[⟨.number digits, position⟩], rfl, .number hn⟩
    case bool b =>
      obtain ⟨rfl, rfl⟩ := pure_eq_ok.mp hp
      exact ⟨[⟨.bool b, position⟩], rfl, .bool⟩
    case ident name =>
      obtain ⟨rfl, rfl⟩ := pure_eq_ok.mp hp
      exact ⟨[⟨.ident name, position⟩], rfl, .var⟩
    case openParen =>
      simp only [bind_eq_ok, expect_eq_ok, pure_eq_ok] at hp
      obtain ⟨e, t, he, _, _, ⟨closing, rfl⟩, rfl, rfl⟩ := hp
      obtain ⟨m, rfl, hm⟩ := hinner _ _ _ he
      obtain ⟨used, rfl, h⟩ := hm _ _ _ he
      refine ⟨⟨.openParen, position⟩ :: used ++ [⟨.closeParen, closing⟩], by simp, ?_⟩
      simpa using h.paren
    all_goals simp at hp

/-- A step of a loop keeps `P used a`, which speaks of the tokens used up so far and of the result
so far. A step that declines takes no token. -/
def Keeps {α : Type} (step : α → Parser (Option α)) (P : List Token → α → Prop) : Prop :=
  ∀ a s o s' used, step a s = .ok o s' → P used a → ∃ more, s = more ++ s' ∧
    match o with
    | some b => P (used ++ more.map (·.token)) b
    | none => more = []

/-- A loop keeps what its step keeps. -/
theorem Keeps.iterate {α : Type} {step : α → Parser (Option α)} {P : List Token → α → Prop}
    (hstep : Keeps step P) {rounds : Nat} {a b : α} {s s' : List Located} {used : List Token}
    (h : iterate step rounds a s = .ok b s') (ha : P used a) :
    ∃ more, s = more ++ s' ∧ P (used ++ more.map (·.token)) b := by
  induction rounds generalizing a s used with
  | zero =>
    obtain ⟨rfl, rfl⟩ := pure_eq_ok.mp h
    exact ⟨[], rfl, by simpa using ha⟩
  | succ rounds ih =>
    obtain ⟨o, t, hs, ht⟩ := bind_eq_ok.mp h
    obtain ⟨first, rfl, hc⟩ := hstep _ _ _ _ _ hs ha
    cases o with
    | none =>
      obtain ⟨rfl, rfl⟩ := pure_eq_ok.mp ht
      obtain rfl := hc
      exact ⟨[], rfl, by simpa using ha⟩
    | some c =>
      obtain ⟨more, rfl, hb⟩ := ih ht hc
      exact ⟨first ++ more, by simp, by simpa using hb⟩

/-- An operand, then a loop that starts from it. -/
theorem Reads.repeatFrom {operand : Parser Expr} {layer : Nat} (hk : layer < 5)
    (hoperand : Reads operand levels (layer + 1)) {step : Expr → Parser (Option Expr)}
    (hstep : Keeps step (Phrase levels layer)) :
    Reads (do let first ← operand; Parser.repeatFrom step first) levels layer := by
  intro tokens e rest h
  obtain ⟨first, t, hf, hloop⟩ := bind_eq_ok.mp h
  obtain ⟨used, rfl, hu⟩ := hoperand _ _ _ hf
  obtain ⟨more, rfl, hm⟩ := hstep.iterate hloop (.above hk hu)
  exact ⟨used ++ more, by simp, by simpa using hm⟩

theorem keeps_argument? (hinner : ReadsInside inner levels) :
    Keeps (argument? inner) (Phrase levels 4) := by
  intro f s o s' used h hf
  rcases argument?_cases h with ⟨rfl, rfl⟩ | ⟨a, ha, rfl⟩
  · exact ⟨[], rfl, rfl⟩
  · obtain ⟨more, rfl, hm⟩ := reads_primary hinner _ _ _ ha
    exact ⟨more, rfl, hf.app hm⟩

theorem keeps_operation? {ops : List Operator} {operand : Parser Expr} {layer : Nat}
    (hops : ∀ op ∈ ops, op.precedence = layer) (hoperand : Reads operand levels (layer + 1)) :
    Keeps (operation? ops operand) (Phrase levels layer) := by
  intro a s o s' used h ha
  rcases operation?_cases h with ⟨rfl, rfl⟩ | ⟨l, t, op, b, rfl, hop, hm, hb, rfl⟩
  · exact ⟨[], rfl, rfl⟩
  · obtain ⟨more, rfl, hmore⟩ := hoperand _ _ _ hb
    obtain rfl := hops op hm
    refine ⟨l :: more, rfl, ?_⟩
    simpa [Token.eq_token_of_operator? hop] using ha.binary hmore

theorem reads_application (hinner : ReadsInside inner levels) :
    Reads (application inner) levels 4 :=
  (reads_primary hinner).repeatFrom (by omega) (keeps_argument? hinner)

theorem Reads.chain {ops : List Operator} {operand : Parser Expr} {layer : Nat} (hk : layer < 5)
    (hops : ∀ op ∈ ops, op.precedence = layer) (hoperand : Reads operand levels (layer + 1)) :
    Reads (chain ops operand) levels layer :=
  hoperand.repeatFrom hk (keeps_operation? hops hoperand)

theorem reads_multiplicative (hinner : ReadsInside inner levels) :
    Reads (multiplicative inner) levels 3 :=
  (reads_application hinner).chain (by omega) (by simp [Operator.precedence])

theorem reads_additive (hinner : ReadsInside inner levels) : Reads (additive inner) levels 2 :=
  (reads_multiplicative hinner).chain (by omega) (by simp [Operator.precedence])

theorem reads_comparison (hinner : ReadsInside inner levels) :
    Reads (comparison inner) levels 1 :=
  (reads_additive hinner).chain (by omega) (by simp [Operator.precedence])

/-! The keyword constructs. Each of these parsers starts behind its keywords. -/

theorem reads_condForm (hinner : ReadsInside inner levels) {s rest : List Located} {e : Expr}
    (h : condForm inner s = .ok e rest) :
    ∃ used, s = used ++ rest ∧ Phrase levels 0 (.ifKw :: used.map (·.token)) e := by
  simp only [condForm, bind_eq_ok, expect_eq_ok, pure_eq_ok] at h
  obtain ⟨c, _, hc, _, _, ⟨p, rfl⟩, t, _, ht, _, _, ⟨q, rfl⟩, f, _, hf, rfl, rfl⟩ := h
  obtain ⟨m, rfl, hm⟩ := hinner _ _ _ hc
  obtain ⟨cs, rfl, pc⟩ := hm _ _ _ hc
  obtain ⟨ts, rfl, pt⟩ := hm _ _ _ ht
  obtain ⟨fs, rfl, pf⟩ := hm _ _ _ hf
  refine ⟨cs ++ ⟨.thenKw, p⟩ :: ts ++ ⟨.elseKw, q⟩ :: fs, by simp, ?_⟩
  simpa using pc.cond pt pf

theorem reads_letForm (hinner : ReadsInside inner levels) {s rest : List Located} {e : Expr}
    (h : letForm inner s = .ok e rest) :
    ∃ used, s = used ++ rest ∧ Phrase levels 0 (.letKw :: used.map (·.token)) e := by
  simp only [letForm, bind_eq_ok, expect_eq_ok, identifier_eq_ok, pure_eq_ok] at h
  obtain ⟨x, _, ⟨p, rfl⟩, _, _, ⟨q, rfl⟩, v, _, hv, _, _, ⟨r, rfl⟩, b, _, hb, rfl, rfl⟩ := h
  obtain ⟨m, rfl, hm⟩ := hinner _ _ _ hv
  obtain ⟨vs, rfl, pv⟩ := hm _ _ _ hv
  obtain ⟨bs, rfl, pb⟩ := hm _ _ _ hb
  refine ⟨⟨.ident x, p⟩ :: ⟨.equal, q⟩ :: vs ++ ⟨.inKw, r⟩ :: bs, by simp, ?_⟩
  simpa using pv.letIn pb

theorem reads_letRecForm (hinner : ReadsInside inner levels) {s rest : List Located} {e : Expr}
    (h : letRecForm inner s = .ok e rest) :
    ∃ used, s = used ++ rest ∧ Phrase levels 0 (.letKw :: .recKw :: used.map (·.token)) e := by
  simp only [letRecForm, bind_eq_ok, expect_eq_ok, identifier_eq_ok, pure_eq_ok] at h
  obtain ⟨f, _, ⟨p₁, rfl⟩, _, _, ⟨p₂, rfl⟩, _, _, ⟨p₃, rfl⟩, x, _, ⟨p₄, rfl⟩, _, _, ⟨p₅, rfl⟩, c,
    _, hc, _, _, ⟨p₆, rfl⟩, b, _, hb, rfl, rfl⟩ := h
  obtain ⟨m, rfl, hm⟩ := hinner _ _ _ hc
  obtain ⟨cs, rfl, pc⟩ := hm _ _ _ hc
  obtain ⟨bs, rfl, pb⟩ := hm _ _ _ hb
  refine ⟨⟨.ident f, p₁⟩ :: ⟨.equal, p₂⟩ :: ⟨.funKw, p₃⟩ :: ⟨.ident x, p₄⟩ :: ⟨.arrow, p₅⟩ :: cs ++
    ⟨.inKw, p₆⟩ :: bs, by simp, ?_⟩
  simpa using pc.letRec pb

theorem reads_funcForm (hinner : ReadsInside inner levels) {s rest : List Located} {e : Expr}
    (h : funcForm inner s = .ok e rest) :
    ∃ used, s = used ++ rest ∧ Phrase levels 0 (.funKw :: used.map (·.token)) e := by
  simp only [funcForm, bind_eq_ok, expect_eq_ok, identifier_eq_ok, pure_eq_ok] at h
  obtain ⟨x, _, ⟨p, rfl⟩, _, _, ⟨q, rfl⟩, b, _, hb, rfl, rfl⟩ := h
  obtain ⟨m, rfl, hm⟩ := hinner _ _ _ hb
  obtain ⟨bs, rfl, pb⟩ := hm _ _ _ hb
  exact ⟨⟨.ident x, p⟩ :: ⟨.arrow, q⟩ :: bs, rfl, by simpa using pb.func⟩

/-- The form of an expression is chosen by its first tokens. -/
theorem reads_form (hinner : ReadsInside inner levels) : Reads (form inner) levels 0 := by
  intro tokens e rest h
  rcases form_cases h with ⟨p, s, rfl, hs⟩ | ⟨p, s, rfl, hs⟩ | ⟨p, q, s, rfl, hs⟩ |
    ⟨p, s, rfl, hs⟩ | hs
  · obtain ⟨used, rfl, hu⟩ := reads_condForm hinner hs
    exact ⟨⟨.ifKw, p⟩ :: used, rfl, hu⟩
  · obtain ⟨used, rfl, hu⟩ := reads_letForm hinner hs
    exact ⟨⟨.letKw, p⟩ :: used, rfl, hu⟩
  · obtain ⟨used, rfl, hu⟩ := reads_letRecForm hinner hs
    exact ⟨⟨.letKw, p⟩ :: ⟨.recKw, q⟩ :: used, rfl, hu⟩
  · obtain ⟨used, rfl, hu⟩ := reads_funcForm hinner hs
    exact ⟨⟨.funKw, p⟩ :: used, rfl, hu⟩
  · obtain ⟨used, rfl, hu⟩ := reads_comparison hinner _ _ _ hs
    exact ⟨used, rfl, .above (by omega) hu⟩

end Sound

theorem readsInside_expression (levels : Nat) : ReadsInside (expression levels) levels := by
  induction levels with
  | zero => intro tokens e rest h; cases h
  | succ m ih => exact fun _ _ _ _ => ⟨m, rfl, reads_form ih⟩

/-- An expression that is read is a phrase, nested no deeper than its room allows. -/
theorem reads_expression (levels : Nat) : Reads (expression (levels + 1)) levels 0 :=
  reads_form (readsInside_expression levels)

/-! ## Loops

A loop has as many rounds as there are tokens when it starts. A step that goes on takes a token,
so the number of rounds never ends the loop. -/

/-- The step of a loop takes a token whenever it goes on, and declines at the end. -/
structure Progresses {α : Type} (step : α → Parser (Option α)) : Prop where
  nil : ∀ a, step a [] = .ok none []
  length_lt : ∀ {a b s s'}, step a s = .ok (some b) s' → s'.length < s.length

theorem bind_of_ok {α β : Type} {p : Parser α} {f : α → Parser β} {s s' : List Located} {a : α}
    (h : p s = .ok a s') : (p >>= f) s = f a s' := by
  show (EStateM.bind p f) s = _
  simp [EStateM.bind, h]

theorem bind_of_error {α β : Type} {p : Parser α} {f : α → Parser β} {s s' : List Located}
    {e : ParseError} (h : p s = .error e s') : (p >>= f) s = .error e s' := by
  show (EStateM.bind p f) s = _
  simp [EStateM.bind, h]

/-- Rounds beyond the number of tokens make no difference. -/
theorem Progresses.iterate_congr {α : Type} {step : α → Parser (Option α)}
    (hstep : Progresses step) {m n : Nat} {a : α} {s : List Located} (hm : s.length ≤ m)
    (hn : s.length ≤ n) : iterate step m a s = iterate step n a s := by
  have hnil : ∀ n a, iterate step n a [] = .ok a [] := by
    intro n a
    cases n with
    | zero => rfl
    | succ n => rw [iterate, bind_of_ok (hstep.nil a)]; rfl
  induction m generalizing n a s with
  | zero =>
    obtain rfl := List.length_eq_zero_iff.mp (Nat.le_zero.mp hm)
    rw [hnil, hnil]
  | succ m ih =>
    cases n with
    | zero =>
      obtain rfl := List.length_eq_zero_iff.mp (Nat.le_zero.mp hn)
      rw [hnil, hnil]
    | succ n =>
      cases h : step a s with
      | error e t => rw [iterate, iterate, bind_of_error h, bind_of_error h]
      | ok o t =>
        rw [iterate, iterate, bind_of_ok h, bind_of_ok h]
        cases o with
        | none => rfl
        | some b =>
          have := hstep.length_lt h
          exact ih (by omega) (by omega)

/-- A step that goes on hands over to the rest of the loop. -/
theorem Progresses.repeatFrom_of_some {α : Type} {step : α → Parser (Option α)}
    (hstep : Progresses step) {a b : α} {s s' : List Located} (h : step a s = .ok (some b) s') :
    repeatFrom step a s = repeatFrom step b s' := by
  have hlt := hstep.length_lt h
  obtain ⟨n, hn⟩ : ∃ n, s.length = n + 1 := ⟨s.length - 1, by omega⟩
  rw [repeatFrom, hn, iterate, bind_of_ok h]
  exact hstep.iterate_congr (by omega) (Nat.le_refl _)

/-- A step that declines ends the loop. -/
theorem repeatFrom_of_none {α : Type} {step : α → Parser (Option α)} {a : α} {s : List Located}
    (h : step a s = .ok none s) : repeatFrom step a s = .ok a s := by
  cases hs : s.length with
  | zero => rw [repeatFrom, hs]; rfl
  | succ n => rw [repeatFrom, hs, iterate, bind_of_ok h]; rfl

/-! ## Every phrase is a result -/

/-- The parser of a layer. -/
def layerParser (inner : Parser Expr) : Nat → Parser Expr
  | 0 => form inner
  | 1 => comparison inner
  | 2 => additive inner
  | 3 => multiplicative inner
  | 4 => application inner
  | _ => primary inner

/-- The operators of a layer. -/
def layerOperators : Nat → List Operator
  | 1 => [.less]
  | 2 => [.add, .sub]
  | 3 => [.mul]
  | _ => []

/-- The step of the loop in a layer. Layers 0 and 5 have none. -/
def layerStep (inner : Parser Expr) (layer : Nat) : Expr → Parser (Option Expr) :=
  if layer = 4 then argument? inner
  else operation? (layerOperators layer) (layerParser inner (layer + 1))

theorem mem_layerOperators {op : Operator} {layer : Nat} :
    op ∈ layerOperators layer ↔ op.precedence = layer := by
  unfold layerOperators
  split <;> cases op <;> simp_all [Operator.precedence, eq_comm]

/-- Between the outermost layer and the primaries, a layer is a loop over the next one. -/
theorem layerParser_eq {inner : Parser Expr} {layer : Nat} (h₀ : 0 < layer) (h₅ : layer < 5) :
    layerParser inner layer =
      (do let first ← layerParser inner (layer + 1); repeatFrom (layerStep inner layer) first) := by
  match layer, h₀, h₅ with
  | 1, _, _ | 2, _, _ | 3, _, _ | 4, _, _ => rfl

theorem reads_layerParser {inner : Parser Expr} {levels : Nat} (hinner : ReadsInside inner levels)
    {layer : Nat} (h : layer ≤ 5) : Reads (layerParser inner layer) levels layer := by
  match layer, h with
  | 0, _ => exact reads_form hinner
  | 1, _ => exact reads_comparison hinner
  | 2, _ => exact reads_additive hinner
  | 3, _ => exact reads_multiplicative hinner
  | 4, _ => exact reads_application hinner
  | 5, _ => exact reads_primary hinner

theorem Reads.length_lt {p : Parser Expr} {levels layer : Nat} (hp : Reads p levels layer)
    {s s' : List Located} {e : Expr} (h : p s = .ok e s') : s'.length < s.length := by
  obtain ⟨used, rfl, hu⟩ := hp _ _ _ h
  obtain ⟨t, ts, hts, -⟩ := hu.first
  cases used with
  | nil => cases hts
  | cons l ls =>
    rw [List.length_append, List.length_cons]
    omega

theorem progresses_layerStep {inner : Parser Expr} {levels : Nat}
    (hinner : ReadsInside inner levels) {layer : Nat} (h₅ : layer ≤ 4) :
    Progresses (layerStep inner layer) := by
  unfold layerStep
  split
  · refine ⟨fun _ => rfl, fun h => ?_⟩
    rcases argument?_cases h with ⟨ho, -⟩ | ⟨a, ha, -⟩
    · cases ho
    · exact (reads_primary hinner).length_lt ha
  · refine ⟨fun _ => rfl, fun h => ?_⟩
    rcases operation?_cases h with ⟨ho, -⟩ | ⟨l, t, op, b, rfl, -, -, hb, -⟩
    · cases ho
    · have := (reads_layerParser hinner (by omega)).length_lt hb
      simp only [List.length_cons]
      omega

/-- Nothing behind the phrase goes on with it. -/
def Stops (layer : Nat) (rest : List Located) : Prop :=
  ∀ l ∈ rest.head?, ¬ l.token.continues layer

theorem Stops.mono {k m : Nat} (h : k ≤ m) {rest : List Located} (hs : Stops k rest) :
    Stops m rest :=
  fun l hl hc => hs l hl (Token.continues_mono h hc)

theorem repeatFrom_layerStep_of_stops {inner : Parser Expr} {layer : Nat} {e : Expr}
    {rest : List Located} (h : Stops layer rest) :
    repeatFrom (layerStep inner layer) e rest = .ok e rest := by
  apply repeatFrom_of_none
  unfold layerStep
  split
  · next h₄ =>
    apply argument?_of_not
    intro l hl
    exact Bool.eq_false_iff.mpr fun hs => h l hl (.inl ⟨by omega, hs⟩)
  · apply operation?_of_not
    intro l hl op hop hm
    have := mem_layerOperators.mp hm
    exact h l hl (.inr ⟨op, hop, by omega⟩)

/-- The outermost layer and the primaries have no loop. -/
theorem repeatFrom_layerStep_of_no_loop {inner : Parser Expr} {layer : Nat}
    (h : layer = 0 ∨ layer = 5) (e : Expr) (rest : List Located) :
    repeatFrom (layerStep inner layer) e rest = .ok e rest := by
  apply repeatFrom_of_none
  rcases h with rfl | rfl <;> exact operation?_of_not (by simp [layerOperators])

theorem stops_cons {t : Token} (ha : t.startsAtom = false) (ho : t.operator? = none) {k p : Nat}
    {rest : List Located} : Stops k (⟨t, p⟩ :: rest) := by
  rintro l hl (⟨-, h⟩ | ⟨op, h, -⟩) <;> cases hl
  · rw [ha] at h; cases h
  · rw [ho] at h; cases h

/-! ## Constructs with a keyword or parentheses

What stands inside is taken by `inner` up to the token that ends it. -/

/-- The parser takes the tokens off the front of a list and gives the expression, unless what is
behind goes on with an operation. -/
def Takes (p : Parser Expr) (ts : List Token) (e : Expr) : Prop :=
  ∀ used rest : List Located, used.map (·.token) = ts → Stops 1 rest → p (used ++ rest) = .ok e rest

theorem Takes.paren {inner : Parser Expr} {ts : List Token} {e : Expr} (h : Takes inner ts e)
    {used rest : List Located} (hused : used.map (·.token) = .openParen :: ts ++ [.closeParen]) :
    primary inner (used ++ rest) = .ok e rest := by
  simp only [List.map_eq_append_iff, List.map_eq_cons_iff, List.map_eq_nil_iff,
    List.cons_append] at hused
  obtain ⟨⟨_, p⟩, _, rfl, rfl, us, _, rfl, hus, ⟨_, q⟩, _, rfl, rfl, rfl⟩ := hused
  have hinner := h us (⟨.closeParen, q⟩ :: rest) hus (stops_cons rfl rfl)
  simp only [primary, List.cons_append, List.append_assoc, List.nil_append, take?_bind,
    List.head?_cons, List.tail_cons, bind_eq_ok, expect_eq_ok, pure_eq_ok]
  exact ⟨e, _, hinner, (), rest, ⟨q, rfl⟩, rfl, rfl⟩

theorem Takes.cond {inner : Parser Expr} {cs ts es : List Token} {c t e : Expr}
    (hc : Takes inner cs c) (ht : Takes inner ts t) (he : Takes inner es e) :
    Takes (form inner) (.ifKw :: cs ++ .thenKw :: ts ++ .elseKw :: es) (.cond c t e) := by
  intro used rest hused hrest
  simp only [List.map_eq_append_iff, List.map_eq_cons_iff, List.cons_append] at hused
  obtain ⟨⟨_, _⟩, _, rfl, rfl, _, _, rfl, ⟨us, _, rfl, hus, ⟨_, p⟩, vs, rfl, rfl, hvs⟩,
    ⟨_, q⟩, xs, rfl, rfl, hxs⟩ := hused
  have hc := hc us (⟨.thenKw, p⟩ :: (vs ++ ⟨.elseKw, q⟩ :: (xs ++ rest))) hus (stops_cons rfl rfl)
  have ht := ht vs (⟨.elseKw, q⟩ :: (xs ++ rest)) hvs (stops_cons rfl rfl)
  have he := he xs rest hxs hrest
  simp only [List.cons_append, List.append_assoc, form_ifKw, condForm, bind_eq_ok, expect_eq_ok,
    pure_eq_ok]
  exact ⟨c, _, hc, (), _, ⟨p, rfl⟩, t, _, ht, (), _, ⟨q, rfl⟩, e, rest, he, rfl, rfl⟩

theorem Takes.letIn {inner : Parser Expr} {name : String} {vs bs : List Token} {v b : Expr}
    (hv : Takes inner vs v) (hb : Takes inner bs b) :
    Takes (form inner) (.letKw :: .ident name :: .equal :: vs ++ .inKw :: bs)
      (.letIn name v b) := by
  intro used rest hused hrest
  simp only [List.map_eq_append_iff, List.map_eq_cons_iff, List.cons_append] at hused
  obtain ⟨⟨_, _⟩, _, rfl, rfl, ⟨_, p₁⟩, _, rfl, rfl, ⟨_, p₂⟩, _, rfl, rfl, us, _, rfl, hus,
    ⟨_, p₃⟩, xs, rfl, rfl, hxs⟩ := hused
  have hv := hv us (⟨.inKw, p₃⟩ :: (xs ++ rest)) hus (stops_cons rfl rfl)
  have hb := hb xs rest hxs hrest
  simp only [List.cons_append, List.append_assoc]
  rw [form_letKw _ _ (by simp)]
  simp only [letForm, bind_eq_ok, expect_eq_ok, identifier_eq_ok, pure_eq_ok]
  exact ⟨name, _, ⟨p₁, rfl⟩, (), _, ⟨p₂, rfl⟩, v, _, hv, (), _, ⟨p₃, rfl⟩, b, rest, hb, rfl, rfl⟩

theorem Takes.letRec {inner : Parser Expr} {name param : String} {fs bs : List Token} {f b : Expr}
    (hf : Takes inner fs f) (hb : Takes inner bs b) :
    Takes (form inner)
      (.letKw :: .recKw :: .ident name :: .equal :: .funKw :: .ident param :: .arrow :: fs ++
        .inKw :: bs)
      (.letRec name param f b) := by
  intro used rest hused hrest
  simp only [List.map_eq_append_iff, List.map_eq_cons_iff, List.cons_append] at hused
  obtain ⟨⟨_, _⟩, _, rfl, rfl, ⟨_, _⟩, _, rfl, rfl, ⟨_, p₁⟩, _, rfl, rfl, ⟨_, p₂⟩, _, rfl, rfl,
    ⟨_, p₃⟩, _, rfl, rfl, ⟨_, p₄⟩, _, rfl, rfl, ⟨_, p₅⟩, _, rfl, rfl, us, _, rfl, hus,
    ⟨_, p₆⟩, xs, rfl, rfl, hxs⟩ := hused
  have hf := hf us (⟨.inKw, p₆⟩ :: (xs ++ rest)) hus (stops_cons rfl rfl)
  have hb := hb xs rest hxs hrest
  simp only [List.cons_append, List.append_assoc, form_letRec, letRecForm, bind_eq_ok,
    expect_eq_ok, identifier_eq_ok, pure_eq_ok]
  exact ⟨name, _, ⟨p₁, rfl⟩, (), _, ⟨p₂, rfl⟩, (), _, ⟨p₃, rfl⟩, param, _, ⟨p₄, rfl⟩, (), _,
    ⟨p₅, rfl⟩, f, _, hf, (), _, ⟨p₆, rfl⟩, b, rest, hb, rfl, rfl⟩

theorem Takes.func {inner : Parser Expr} {param : String} {bs : List Token} {b : Expr}
    (hb : Takes inner bs b) :
    Takes (form inner) (.funKw :: .ident param :: .arrow :: bs) (.func param b) := by
  intro used rest hused hrest
  simp only [List.map_eq_cons_iff] at hused
  obtain ⟨⟨_, _⟩, _, rfl, rfl, ⟨_, p₁⟩, _, rfl, rfl, ⟨_, p₂⟩, xs, rfl, rfl, hxs⟩ := hused
  have hb := hb xs rest hxs hrest
  simp only [List.cons_append, form_funKw, funcForm, bind_eq_ok, expect_eq_ok, identifier_eq_ok,
    pure_eq_ok]
  exact ⟨param, _, ⟨p₁, rfl⟩, (), _, ⟨p₂, rfl⟩, b, rest, hb, rfl, rfl⟩

/-! ## Completeness -/

/-- The outermost layer has no loop, so what it is shown to go on with is its result. -/
theorem takes_expression {levels : Nat} {ts : List Token} {e : Expr}
    (h : ∀ {used rest : List Located}, used.map (·.token) = ts → Stops 1 rest →
      layerParser (expression levels) 0 (used ++ rest) =
        repeatFrom (layerStep (expression levels) 0) e rest) :
    Takes (expression (levels + 1)) ts e := fun _ rest hused hrest =>
  (h hused hrest).trans (repeatFrom_layerStep_of_no_loop (.inl rfl) e rest)

/-- The tokens of a phrase are used up, and the loop of its layer goes on with what follows. The
condition on `rest` is only that it does not go on with an operand of the loop. -/
theorem layerParser_of_phrase {levels layer : Nat} {ts : List Token} {e : Expr}
    (h : Phrase levels layer ts e) {used rest : List Located} (hused : used.map (·.token) = ts)
    (hrest : Stops (layer + 1) rest) :
    layerParser (expression levels) layer (used ++ rest) =
      repeatFrom (layerStep (expression levels) layer) e rest := by
  induction h generalizing used rest with
  | number h =>
    obtain ⟨⟨_, p⟩, rfl, rfl⟩ := List.map_eq_singleton_iff.mp hused
    rw [repeatFrom_layerStep_of_no_loop (.inr rfl)]
    simp [layerParser, primary, h]
  | bool | var =>
    obtain ⟨⟨_, p⟩, rfl, rfl⟩ := List.map_eq_singleton_iff.mp hused
    rw [repeatFrom_layerStep_of_no_loop (.inr rfl)]
    rfl
  | paren _ ih =>
    rw [repeatFrom_layerStep_of_no_loop (.inr rfl)]
    exact (takes_expression ih).paren hused
  | @app levels fs as f a hf ha ihf iha =>
    obtain ⟨us, vs, rfl, hus, hvs⟩ := List.map_eq_append_iff.mp hused
    have hstops : ∀ rest, Stops 5 rest := fun rest l _ =>
      Token.not_continues_of_five_le (Nat.le_refl 5) l.token
    have hargument : primary (expression levels) (vs ++ rest) = .ok a rest :=
      (iha hvs (Stops.mono (by omega) (hstops rest))).trans
        (repeatFrom_layerStep_of_no_loop (.inr rfl) _ _)
    obtain ⟨t, ts', rfl, ht⟩ := ha.first
    obtain ⟨l, ls, rfl, rfl, -⟩ := List.map_eq_cons_iff.mp hvs
    rw [List.append_assoc, ihf hus (hstops _)]
    apply (progresses_layerStep (readsInside_expression levels) (by omega)).repeatFrom_of_some
    exact argument?_of_startsAtom (ht (by omega)) hargument
  | @binary levels op ls rs l r hl hr ihl ihr =>
    obtain ⟨us, ws, rfl, hus, hws⟩ := List.map_eq_append_iff.mp hused
    obtain ⟨⟨_, p⟩, vs, rfl, rfl, hvs⟩ := List.map_eq_cons_iff.mp hws
    have hoperator : Stops (op.precedence + 1) (⟨op.token, p⟩ :: (vs ++ rest)) := by
      intro l hl
      cases hl
      exact Token.not_continues_token (by omega)
    have hright : layerParser (expression levels) (op.precedence + 1) (vs ++ rest) =
        .ok r rest := by
      rw [ihr hvs (hrest.mono (by omega)), repeatFrom_layerStep_of_stops hrest]
    have hle : op.precedence ≤ 3 := by cases op <;> decide
    rw [List.append_assoc, List.cons_append, ihl hus hoperator]
    apply (progresses_layerStep (readsInside_expression levels) (by omega)).repeatFrom_of_some
    rw [layerStep, if_neg (by omega)]
    exact operation?_of_mem (Token.operator?_token op) (mem_layerOperators.mpr rfl) hright
  | cond _ _ _ ihc iht ihe =>
    rw [repeatFrom_layerStep_of_no_loop (.inl rfl)]
    exact (takes_expression ihc).cond (takes_expression iht) (takes_expression ihe) _ _ hused hrest
  | letIn _ _ ihv ihb =>
    rw [repeatFrom_layerStep_of_no_loop (.inl rfl)]
    exact (takes_expression ihv).letIn (takes_expression ihb) _ _ hused hrest
  | letRec _ _ ihf ihb =>
    rw [repeatFrom_layerStep_of_no_loop (.inl rfl)]
    exact (takes_expression ihf).letRec (takes_expression ihb) _ _ hused hrest
  | func _ ihb =>
    rw [repeatFrom_layerStep_of_no_loop (.inl rfl)]
    exact (takes_expression ihb).func _ _ hused hrest
  | @above levels layer ts e hk h ih =>
    have hok : layerParser (expression levels) (layer + 1) (used ++ rest) = .ok e rest := by
      rw [ih hused (hrest.mono (by omega)), repeatFrom_layerStep_of_stops hrest]
    by_cases h₀ : 0 < layer
    · rw [layerParser_eq h₀ hk, bind_of_ok hok]
    · obtain rfl : layer = 0 := by omega
      obtain ⟨t, ts', rfl, ht⟩ := h.first
      obtain ⟨l, ls, rfl, rfl, -⟩ := List.map_eq_cons_iff.mp hused
      rw [repeatFrom_layerStep_of_no_loop (.inl rfl)]
      exact (form_of_startsAtom _ (ht (by omega))).trans hok

/-- The whole text is read just if its tokens up to the end are a phrase. -/
theorem statement_eq_ok_iff {s s' : List Located} {e : Expr} :
    statement s = .ok e s' ↔ ∃ used p, s = used ++ ⟨.eof, p⟩ :: s' ∧
      Phrase maxNesting 0 (used.map (·.token)) e := by
  simp only [statement, bind_eq_ok, expect_eq_ok, pure_eq_ok]
  constructor
  · rintro ⟨_, _, he, _, _, ⟨p, rfl⟩, rfl, rfl⟩
    obtain ⟨used, rfl, hu⟩ := reads_expression maxNesting _ _ _ he
    exact ⟨used, p, rfl, hu⟩
  · rintro ⟨used, p, rfl, hu⟩
    have he : expression (maxNesting + 1) (used ++ ⟨.eof, p⟩ :: s') = .ok e _ :=
      takes_expression (layerParser_of_phrase hu) used _ rfl (stops_cons rfl rfl)
    exact ⟨e, _, he, (), s', ⟨p, rfl⟩, rfl, rfl⟩

/-- The name of a recursive function is read if `rec` comes first; otherwise nothing is taken. -/
theorem recName?_eq_ok_iff {s s' : List Located} {name? : Option String} :
    recName? s = .ok name? s' ↔
      (∃ name p q r, s = ⟨.recKw, p⟩ :: ⟨.ident name, q⟩ :: ⟨.equal, r⟩ :: s' ∧
        name? = some name) ∨
      (s.head?.map (·.token) ≠ some .recKw ∧ name? = none ∧ s = s') := by
  by_cases h : s.head?.map (·.token) = some .recKw
  · obtain ⟨⟨token, p⟩, t, rfl⟩ : ∃ l t, s = l :: t := by cases s <;> simp_all
    cases h
    simp only [recName?, peek?_bind, take?_bind, List.head?_cons, Option.map_some, List.tail_cons,
      bind_eq_ok, identifier_eq_ok, expect_eq_ok, pure_eq_ok]
    constructor
    · rintro ⟨name, _, ⟨q, rfl⟩, _, _, ⟨r, rfl⟩, rfl, rfl⟩
      exact .inl ⟨name, p, q, r, rfl, rfl⟩
    · rintro (⟨name, _, q, r, hs, rfl⟩ | ⟨hne, -⟩)
      · cases hs
        exact ⟨name, _, ⟨q, rfl⟩, (), s', ⟨r, rfl⟩, rfl, rfl⟩
      · exact absurd rfl hne
  · have hnone : recName? s = .ok none s := by simp [recName?]
    rw [hnone]
    constructor
    · intro he
      cases he
      exact .inr ⟨h, rfl, rfl⟩
    · rintro (⟨name, p, q, r, rfl, -⟩ | ⟨-, rfl, rfl⟩)
      · exact absurd rfl h
      · rfl

/-- The code of a function is read just if its tokens up to the end are a phrase for it. -/
theorem code_eq_ok_iff {s s' : List Located} {c : Code} :
    code s = .ok c s' ↔ ∃ used p, s = used ++ ⟨.eof, p⟩ :: s' ∧
      CodePhrase (used.map (·.token)) c := by
  simp only [code, bind_eq_ok, expect_eq_ok, identifier_eq_ok, pure_eq_ok, statement_eq_ok_iff,
    recName?_eq_ok_iff]
  constructor
  · rintro ⟨_, _, ⟨name, q₁, q₂, q₃, rfl, rfl⟩ | ⟨-, rfl, rfl⟩, _, _, ⟨p₁, rfl⟩, x, _, ⟨p₂, rfl⟩, _,
      _, ⟨p₃, rfl⟩, b, _, ⟨bs, p, rfl, hb⟩, rfl, rfl⟩
    · exact ⟨⟨.recKw, q₁⟩ :: ⟨.ident name, q₂⟩ :: ⟨.equal, q₃⟩ :: ⟨.funKw, p₁⟩ :: ⟨.ident x, p₂⟩ ::
        ⟨.arrow, p₃⟩ :: bs, p, rfl, .recFunc hb⟩
    · exact ⟨⟨.funKw, p₁⟩ :: ⟨.ident x, p₂⟩ :: ⟨.arrow, p₃⟩ :: bs, p, rfl, .func hb⟩
  · rintro ⟨used, p, rfl, hc⟩
    generalize hused : used.map (·.token) = ts at hc
    cases hc with
    | @func x _ b hb =>
      simp only [List.map_eq_cons_iff] at hused
      obtain ⟨⟨_, p₁⟩, _, rfl, rfl, ⟨_, p₂⟩, _, rfl, rfl, ⟨_, p₃⟩, bs, rfl, rfl, rfl⟩ := hused
      exact ⟨none, _, .inr ⟨by simp, rfl, rfl⟩, (), _, ⟨p₁, rfl⟩, x, _, ⟨p₂, rfl⟩, (), _,
        ⟨p₃, rfl⟩, b, s', ⟨bs, p, rfl, hb⟩, rfl, rfl⟩
    | @recFunc name x _ b hb =>
      simp only [List.map_eq_cons_iff] at hused
      obtain ⟨⟨_, q₁⟩, _, rfl, rfl, ⟨_, q₂⟩, _, rfl, rfl, ⟨_, q₃⟩, _, rfl, rfl, ⟨_, p₁⟩, _, rfl,
        rfl, ⟨_, p₂⟩, _, rfl, rfl, ⟨_, p₃⟩, bs, rfl, rfl, rfl⟩ := hused
      exact ⟨some name, _, .inl ⟨name, q₁, q₂, q₃, rfl, rfl⟩, (), _, ⟨p₁, rfl⟩, x, _, ⟨p₂, rfl⟩,
        (), _, ⟨p₃, rfl⟩, b, s', ⟨bs, p, rfl, hb⟩, rfl, rfl⟩

end BigStep.Parser
