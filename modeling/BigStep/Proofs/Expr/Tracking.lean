import BigStep.Proofs.Expr.Diagnosis

/-!
# Every parser of the grammar accounts for what it does

One lemma `tracks_…` for each parser, from a single token to `tracks_expression`, which is by
induction on the room.
-/

namespace BigStep.Parser

/-- The tokens derive the expression. -/
def Derived (nt : Nonterminal) (ts : List Token) (e : Expr) : Prop := ∃ n, Derives nt n ts e

section

variable {nt : Nonterminal} {room : Nat} {before : List Token}

theorem expect_of_ne {t : Token} {l : Located} {rest : List Located} (h : l.token ≠ t) :
    expect t (l :: rest) =
      .error (.unexpectedToken (.token t.kind) l.token.kind l.position) rest := by
  rw [expect, take?_bind, List.head?_cons, Option.map_some, if_neg (by simpa using h)]
  rfl

theorem tracks_expect {t : Token} {after : List Token} (ht : t.Bare) (h : Begins nt after)
    (hafter : before ++ [t] = after) :
    Tracks nt room before (expect t) (expect t) (fun ts _ => ts = after) := by
  subst hafter
  intro s hs
  obtain ⟨l, rest, rfl⟩ := hs.exists_cons
  by_cases hl : l.token = t
  · subst hl
    have hexpect (rest' : List Located) : expect l.token (l :: rest') = .ok () rest' :=
      expect_eq_ok.mpr ⟨l.position, rfl⟩
    exact .take hs ht.ne_eof ht.readable rfl (hexpect rest) hexpect
  · refine .refuse (expect_of_ne hl) (fun u hu => ht.eq_of_kind_eq hu.1 ▸ h) fun l' rest' hl' => ?_
    have hne : l'.token ≠ t := fun heq => hl (heq ▸ hl'.eq_of_ne (heq ▸ ht.ne_number))
    exact ⟨_, _, expect_of_ne hne⟩

theorem identifier_of_ne {l : Located} {rest : List Located} (h : l.token.kind ≠ .ident) :
    identifier (l :: rest) =
      .error (.unexpectedToken (.token .ident) l.token.kind l.position) rest := by
  obtain ⟨token, position⟩ := l
  cases token <;> first | rfl | exact absurd rfl h

theorem tracks_identifier (h : ∀ name, Begins nt (before ++ [.ident name])) :
    Tracks nt room before identifier identifier (fun ts name => ts = before ++ [.ident name]) := by
  intro s hs
  obtain ⟨⟨token, position⟩, rest, rfl⟩ := hs.exists_cons
  by_cases hl : token.kind = .ident
  · obtain ⟨name, rfl⟩ := Token.exists_ident_of_kind hl
    exact .take hs nofun trivial rfl rfl fun _ => rfl
  · refine .refuse (identifier_of_ne hl) (fun u hu => ?_) fun l' rest' hl' => ?_
    · obtain ⟨name, rfl⟩ := Token.exists_ident_of_kind hu.1
      exact h name
    · exact ⟨_, _, identifier_of_ne (hl'.kind ▸ hl)⟩

theorem primary_of_not {inner : Parser Expr} {l : Located} {rest : List Located}
    (h : l.token.startsAtom = false) :
    primary inner (l :: rest) =
      .error (.unexpectedToken .expression l.token.kind l.position) rest := by
  obtain ⟨token, position⟩ := l
  cases token <;> first | rfl | cases h

variable {inner inner' : Parser Expr}

/-- A number is read if it is in range, and named otherwise. -/
theorem tracks_number {digits : String} {position : Nat} {rest : List Located}
    (hs : Complete (⟨.number digits, position⟩ :: rest)) :
    TracksAt .primary room [] (primary inner) (primary inner') (Derived .primary)
      (⟨.number digits, position⟩ :: rest) := by
  have hne : Token.number digits ≠ .eof := nofun
  have hgenuine : (Token.number digits).Genuine := hs.genuine List.mem_cons_self hne
  cases hn : Integer.ofText? digits.toList with
  | none =>
    have hprimary : primary inner (⟨.number digits, position⟩ :: rest) =
        .error (.literalTooLarge digits position) rest := by
      simp only [primary, take?_bind, List.head?_cons, hn]
      rfl
    exact @TracksAt.error _ _ _ _ _ _ _ _ [] _ rest _ _ rfl taken_nil hprimary
      (.literal rfl hn Derives.number.begins)
  | some n =>
    obtain ⟨rfl, -⟩ := (Integer.ofText?_eq_some_iff hgenuine.1 hgenuine.2).mp hn
    have hprimary (i : Parser Expr) (rest' : List Located) :
        primary i (⟨.number digits, position⟩ :: rest') =
          .ok (.int (decimalValue digits)) rest' := by
      simp only [primary, take?_bind, List.head?_cons, hn]
      rfl
    exact .take hs hne hn ⟨0, .number⟩ (hprimary _ _) (hprimary _)

/-- Behind the parenthesis that opens. -/
theorem tracks_paren (h : Tracks .expression room [] inner inner' (Derived .expression)) :
    Tracks .primary (room + 1) [.openParen]
      (do let e ← inner; expect .closeParen; pure e)
      (do let e ← inner'; expect .closeParen; pure e) (Derived .primary) := by
  refine (h.enter .paren (Nat.add_comm 1 room)).bind ?_
  rintro e _ ⟨ts, rfl, n, he⟩
  refine (tracks_expect (by decide) he.paren.begins rfl).bind ?_
  rintro _ _ rfl
  exact .pure ⟨_, he.paren⟩

theorem tracks_primary (h : Tracks .expression room [] inner inner' (Derived .expression)) :
    Tracks .primary (room + 1) [] (primary inner) (primary inner') (Derived .primary) := by
  intro s hs
  obtain ⟨⟨token, position⟩, rest, rfl⟩ := hs.exists_cons
  cases token
  case number digits => exact tracks_number hs
  case bool b => exact .take hs nofun trivial ⟨0, .bool⟩ rfl fun _ => rfl
  case ident name => exact .take hs nofun trivial ⟨0, .var⟩ rfl fun _ => rfl
  case openParen => exact .cons hs (tracks_paren h) nofun trivial rfl fun _ => rfl
  all_goals
    exact .refuse (primary_of_not rfl) (fun u hu => begins_of_startsAtom hu .primary)
      fun l' rest' hl' => ⟨_, _, primary_of_not hl'.startsAtom⟩

/-! A step of a loop goes on or declines by the look of the next token. -/

theorem argument?_eq_bind {f : Expr} {l : Located} {rest : List Located}
    (hl : l.token.startsAtom = true) :
    argument? inner f (l :: rest) =
      (do let a ← primary inner; pure (some (.app f a)) : Parser (Option Expr)) (l :: rest) := by
  simp only [argument?, peek?_bind, List.head?_cons, Option.map_some, hl, if_true]

theorem tracks_argument? {f : Expr} {fs : List Token} (hf : Derived .application fs f)
    (h : Tracks .primary room [] (primary inner) (primary inner') (Derived .primary)) :
    Tracks .application room fs (argument? inner f) (argument? inner' f)
      (Tracks.Step (Derived .application) fs) := by
  intro s hs
  obtain ⟨l, rest, rfl⟩ := hs.exists_cons
  obtain ⟨n, hf⟩ := hf
  cases hl : l.token.startsAtom with
  | true =>
    refine .congr hs ?_ (argument?_eq_bind hl)
      fun l' rest' hl' => argument?_eq_bind (hl'.startsAtom.trans hl)
    refine (h.enter (.argument hf) (Nat.zero_add room)).bind ?_
    rintro a _ ⟨as, rfl, m, ha⟩
    exact .pure ⟨_, hf.app ha⟩
  | false =>
    have hnone {i : Parser Expr} {l' : Located} {rest' : List Located}
        (hl' : l.token.Resembles l'.token) :
        argument? i f (l' :: rest') = .ok none (l' :: rest') := by
      refine argument?_of_not fun k hk => ?_
      cases hk
      exact hl'.startsAtom.trans hl
    exact .look (hnone (.same _)) rfl fun l' rest' hl' => hnone hl'

theorem operation?_eq_bind {ops : List Operator} {op : Operator} {operand : Parser Expr} {a : Expr}
    {l : Located} {rest : List Located} (hop : l.token.operator? = some op) (hm : op ∈ ops) :
    operation? ops operand a (l :: rest) =
      (do let b ← operand; pure (some (.binary op a b)) : Parser (Option Expr)) rest := by
  simp only [operation?, peek?_bind, List.head?_cons, Option.map_some, Option.bind_some, hop, hm,
    if_true, take?_bind, List.tail_cons]

theorem tracks_operation? {ops : List Operator} {operand operand' : Parser Expr}
    (hops : ∀ op ∈ ops, op.nonterminal = nt) {a : Expr} {ls : List Token} (ha : Derived nt ls a)
    (h : Tracks nt.operand room [] operand operand' (Derived nt.operand)) :
    Tracks nt room ls (operation? ops operand a) (operation? ops operand' a)
      (Tracks.Step (Derived nt) ls) := by
  intro s hs
  obtain ⟨l, rest, rfl⟩ := hs.exists_cons
  obtain ⟨n, ha⟩ := ha
  by_cases hl : ∃ op ∈ ops, l.token.operator? = some op
  · obtain ⟨op, hm, hop⟩ := hl
    obtain rfl := hops op hm
    have htoken := Token.eq_token_of_operator? hop
    refine .cons hs ?_ (htoken ▸ op.bare_token.ne_eof) (htoken ▸ op.readable_token)
      (operation?_eq_bind hop hm) fun _ => operation?_eq_bind hop hm
    rw [htoken]
    refine (h.enter (.right ha) (Nat.zero_add room)).bind ?_
    rintro b _ ⟨rs, rfl, m, hb⟩
    exact .pure ⟨_, by simpa using ha.binary hb⟩
  · have hnone {o : Parser Expr} {l' : Located} {rest' : List Located}
        (hl' : l.token.Resembles l'.token) :
        operation? ops o a (l' :: rest') = .ok none (l' :: rest') := by
      refine operation?_of_not fun k hk op hop hm => ?_
      cases hk
      exact hl ⟨op, hm, hl'.operator? ▸ hop⟩
    exact .look (hnone (.same _)) rfl fun l' rest' hl' => hnone hl'

/-! Each layer from the primaries up is a loop over the one before. -/

theorem tracks_layer {m m' : Nat} (h₀ : nt ≠ .expression) (h₅ : nt ≠ .primary)
    (h : Tracks nt.operand room [] (layerParser (expression m) nt.operand.layer)
      (layerParser (expression m') nt.operand.layer) (Derived nt.operand)) :
    Tracks nt room [] (layerParser (expression m) nt.layer) (layerParser (expression m') nt.layer)
      (Derived nt) := by
  have hpos : 0 < nt.layer := by cases nt <;> first | decide | exact absurd rfl h₀
  have hlt : nt.layer < 5 := by cases nt <;> first | decide | exact absurd rfl h₅
  rw [layerParser_eq hpos hlt, layerParser_eq hpos hlt, ← Nonterminal.layer_operand h₅]
  refine (h.enter (.operand h₅) (Nat.zero_add room)).bind ?_
  rintro e _ ⟨ts, rfl, n, he⟩
  refine .repeatFrom (progresses_layerStep (readsInside_expression m) (by omega))
    (progresses_layerStep (readsInside_expression m') (by omega)) ?_ ⟨n, he.ofOperand h₅⟩
  intro a ls ha
  by_cases h₄ : nt = .application
  · subst h₄
    exact tracks_argument? ha h
  · have hne : nt.layer ≠ 4 := by cases nt <;> first | decide | exact absurd rfl h₄
    rw [layerStep, layerStep, if_neg hne, if_neg hne, ← Nonterminal.layer_operand h₅]
    have hops : ∀ op ∈ layerOperators nt.layer, op.nonterminal = nt := fun _ hm =>
      Operator.nonterminal_of_layer (mem_layerOperators.mp hm)
    exact tracks_operation? hops ha h

/-! The keyword constructs. Each of these parsers starts behind its keywords. -/

theorem tracks_condForm (h : Tracks .expression room [] inner inner' (Derived .expression)) :
    Tracks .expression (room + 1) [.ifKw] (condForm inner) (condForm inner')
      (Derived .expression) := by
  have hroom := Nat.add_comm 1 room
  refine (h.enter .condition hroom).bind ?_
  rintro c _ ⟨cs, rfl, l, hc⟩
  have hthen := Enters.thenBranch hc
  refine (tracks_expect (by decide) hthen.begins_here rfl).bind ?_
  rintro _ _ rfl
  refine (h.enter hthen hroom).bind ?_
  rintro t _ ⟨ts, rfl, m, ht⟩
  have helse := Enters.elseBranch hc ht
  refine (tracks_expect (by decide) helse.begins_here (by simp)).bind ?_
  rintro _ _ rfl
  refine (h.enter helse hroom).bind ?_
  rintro e _ ⟨es, rfl, n, he⟩
  exact .pure ⟨_, by simpa using hc.cond ht he⟩

theorem tracks_letForm (h : Tracks .expression room [] inner inner' (Derived .expression)) :
    Tracks .expression (room + 1) [.letKw] (letForm inner) (letForm inner')
      (Derived .expression) := by
  have hroom := Nat.add_comm 1 room
  refine (tracks_identifier fun name => ?_).bind ?_
  · exact @Begins.of_append _ [.letKw, .ident name] [.equal] Enters.letValue.begins_here
  rintro name _ rfl
  refine (tracks_expect (by decide) (@Enters.letValue name).begins_here rfl).bind ?_
  rintro _ _ rfl
  refine (h.enter .letValue hroom).bind ?_
  rintro v _ ⟨vs, rfl, m, hv⟩
  have hbody := @Enters.letBody _ name _ _ hv
  refine (tracks_expect (by decide) hbody.begins_here rfl).bind ?_
  rintro _ _ rfl
  refine (h.enter hbody hroom).bind ?_
  rintro b _ ⟨bs, rfl, n, hb⟩
  exact .pure ⟨_, by simpa using hv.letIn hb⟩

theorem tracks_letRecForm (h : Tracks .expression room [] inner inner' (Derived .expression)) :
    Tracks .expression (room + 1) [.letKw, .recKw] (letRecForm inner) (letRecForm inner')
      (Derived .expression) := by
  have hroom := Nat.add_comm 1 room
  have hvalue (name param : String) := (@Enters.recValue name param).begins_here
  refine (tracks_identifier fun name => ?_).bind ?_
  · exact @Begins.of_append _ [.letKw, .recKw, .ident name] _ (hvalue name "")
  rintro name _ rfl
  refine (tracks_expect (by decide) ?_ rfl).bind ?_
  · exact @Begins.of_append _ [.letKw, .recKw, .ident name, .equal] _ (hvalue name "")
  rintro _ _ rfl
  refine (tracks_expect (by decide) ?_ rfl).bind ?_
  · exact @Begins.of_append _ [.letKw, .recKw, .ident name, .equal, .funKw] _ (hvalue name "")
  rintro _ _ rfl
  refine (tracks_identifier fun param => ?_).bind ?_
  · exact @Begins.of_append _ [.letKw, .recKw, .ident name, .equal, .funKw, .ident param] _
      (hvalue name param)
  rintro param _ rfl
  refine (tracks_expect (by decide) (hvalue name param) rfl).bind ?_
  rintro _ _ rfl
  refine (h.enter .recValue hroom).bind ?_
  rintro f _ ⟨fs, rfl, m, hf⟩
  have hbody := @Enters.recBody _ name param _ _ hf
  refine (tracks_expect (by decide) hbody.begins_here rfl).bind ?_
  rintro _ _ rfl
  refine (h.enter hbody hroom).bind ?_
  rintro b _ ⟨bs, rfl, n, hb⟩
  exact .pure ⟨_, by simpa using hf.letRec hb⟩

theorem tracks_funcForm (h : Tracks .expression room [] inner inner' (Derived .expression)) :
    Tracks .expression (room + 1) [.funKw] (funcForm inner) (funcForm inner')
      (Derived .expression) := by
  refine (tracks_identifier fun param => ?_).bind ?_
  · exact @Begins.of_append _ [.funKw, .ident param] [.arrow] Enters.funcBody.begins_here
  rintro param _ rfl
  refine (tracks_expect (by decide) (@Enters.funcBody param).begins_here rfl).bind ?_
  rintro _ _ rfl
  refine (h.enter .funcBody (Nat.add_comm 1 room)).bind ?_
  rintro b _ ⟨bs, rfl, n, hb⟩
  exact .pure ⟨_, hb.func⟩

/-- Behind `let`: a recursive binding if `rec` comes next. -/
def binding (inner : Parser Expr) : Parser Expr := do
  match ← peek? with
  | some .recKw =>
    let _ ← take?
    letRecForm inner
  | _ => letForm inner

theorem binding_of_ne {l : Located} {rest : List Located} (h : l.token ≠ .recKw) :
    binding inner (l :: rest) = letForm inner (l :: rest) := by
  simp [binding, h]

theorem tracks_binding (h : Tracks .expression room [] inner inner' (Derived .expression)) :
    Tracks .expression (room + 1) [.letKw] (binding inner) (binding inner')
      (Derived .expression) := by
  intro s hs
  obtain ⟨⟨token, position⟩, rest, rfl⟩ := hs.exists_cons
  by_cases hrec : token = .recKw
  · subst hrec
    exact .cons hs (tracks_letRecForm h) nofun trivial rfl fun _ => rfl
  · refine .congr hs (tracks_letForm h) (binding_of_ne hrec) fun l' rest' hl' => binding_of_ne ?_
    intro heq
    rw [heq] at hl'
    exact hrec (hl'.eq_of_ne nofun)

theorem tracks_comparison {m m' : Nat}
    (h : Tracks .expression room [] (expression m) (expression m') (Derived .expression)) :
    Tracks .comparison (room + 1) [] (comparison (expression m)) (comparison (expression m'))
      (Derived .comparison) := by
  have happlication : Tracks .application _ [] _ _ _ :=
    tracks_layer nofun nofun (tracks_primary h)
  have hmultiplicative : Tracks .multiplicative _ [] _ _ _ :=
    tracks_layer nofun nofun happlication
  have hadditive : Tracks .additive _ [] _ _ _ := tracks_layer nofun nofun hmultiplicative
  exact @tracks_layer .comparison _ _ _ nofun nofun hadditive

theorem tracks_form {m m' : Nat}
    (h : Tracks .expression room [] (expression m) (expression m') (Derived .expression)) :
    Tracks .expression (room + 1) [] (form (expression m)) (form (expression m'))
      (Derived .expression) := by
  intro s hs
  obtain ⟨⟨token, position⟩, rest, rfl⟩ := hs.exists_cons
  have hcomparison : Tracks .expression (room + 1) [] (comparison (expression m))
      (comparison (expression m')) (Derived .expression) := by
    have henter := @Enters.operand .expression nofun
    refine ((tracks_comparison h).enter henter (Nat.zero_add _)).mono ?_
    rintro _ e ⟨ts, rfl, n, he⟩
    exact ⟨n, .ofComparison he⟩
  cases token
  case ifKw => exact .cons hs (tracks_condForm h) nofun trivial rfl fun _ => rfl
  case letKw => exact .cons hs (tracks_binding h) nofun trivial rfl fun _ => rfl
  case funKw => exact .cons hs (tracks_funcForm h) nofun trivial rfl fun _ => rfl
  all_goals
    refine .congr hs hcomparison rfl ?_
    rintro ⟨_, _⟩ rest' hl'
    cases hl' <;> rfl

end

/-- The parser with `room` levels accounts for what it does, and so does every parser with more. -/
theorem tracks_expression {room room' : Nat} (h : room ≤ room') :
    Tracks .expression room [] (expression room) (expression room') (Derived .expression) := by
  induction room generalizing room' with
  | zero =>
    intro s hs
    obtain ⟨l, rest, rfl⟩ := hs.exists_cons
    exact @TracksAt.error _ _ _ _ _ _ _ _ [] l rest _ _ rfl taken_nil rfl (.tooDeep .here)
  | succ room ih =>
    obtain ⟨m, rfl⟩ : ∃ m, room' = m + 1 := ⟨room' - 1, by omega⟩
    exact tracks_form (ih (by omega))

end BigStep.Parser
