import BigStep.Proofs.Expr.Offending
import BigStep.Proofs.Token.Spacing
import BigStep.Proofs.Value.Format

/-!
# Functions as expressions and as code

A function can be written as an expression and as the code of a closure. Both are read from the
same tokens, but the body of an expression is one level further in, and the body of a recursive
function ends at `in` there and at the end of the text here.

* `Code.header`, `codePhrase_iff`: the tokens in front of the body of a function.
* `Phrase.of_funKw`, `Phrase.of_letRec`: an expression that begins like a function is one.
* `Phrase.inKw_not_mem`: a number is written without `in`, so the last `in` is the one before it.
* `Expr.parse_of_derives`: what the parser gives for a derivation with any number of levels.
* `Code.parse_agrees_with_expr`: both ways to read a function give the same, up to that one level.
-/

namespace BigStep

/-! ## Tokens of functions -/

/-- The tokens of the code up to its body. -/
def Code.header (c : Code) : List Token :=
  (match c.name? with
    | none => []
    | some name => [.recKw, .ident name, .equal]) ++
  [.funKw, .ident c.param, .arrow]

/-- In the text, the body of the code is written with its innermost expression inside `n` levels. -/
def Code.WrittenInside (text : String) (c : Code) (n : Nat) : Prop :=
  ∃ located bs, tokenize text = .ok located ∧
    located.map (·.token) = c.header ++ bs ++ [.eof] ∧ Derives .expression n bs c.body

theorem Code.readable_header (c : Code) : ∀ t ∈ c.header, t.Readable := by
  obtain ⟨_ | name, param, body⟩ := c <;> simp [header, Token.Readable]

theorem codePhrase_iff {ts : List Token} {c : Code} :
    CodePhrase ts c ↔ ∃ bs, ts = c.header ++ bs ∧ Phrase Parser.maxNesting 0 bs c.body := by
  constructor
  · intro h
    cases h with
    | func hb => exact ⟨_, rfl, hb⟩
    | recFunc hb => exact ⟨_, rfl, hb⟩
  · rintro ⟨bs, rfl, hb⟩
    obtain ⟨_ | name, param, body⟩ := c
    · exact .func hb
    · exact .recFunc hb

/-- Code is read just from its header and a body with at most 200 levels. -/
theorem Code.parse_eq_ok_iff_header {source : String} {c : Code} :
    Code.parse source = .ok c ↔ ∃ bs n, Spells source.toList (c.header ++ bs) ∧ n ≤ 200 ∧
      Derives .expression n bs c.body ∧ ∀ t ∈ bs, t.Readable := by
  rw [parse_eq_ok_iff]
  constructor
  · rintro ⟨ts, hspells, hcode⟩
    obtain ⟨bs, rfl, hphrase⟩ := codePhrase_iff.mp hcode
    have hgenuine := (List.forall_mem_append.mp hspells.genuine).2
    obtain ⟨n, hn, hderives⟩ := hphrase.derives hgenuine .expression rfl
    exact ⟨bs, n, hspells, hn, hderives, hphrase.readable hgenuine⟩
  · rintro ⟨bs, n, hspells, hn, hderives, hread⟩
    exact ⟨_, hspells, codePhrase_iff.mpr ⟨bs, rfl, hderives.phrase hn hread⟩⟩

/-- An expression that begins with `fun` is a function. -/
theorem Phrase.of_funKw {levels : Nat} {ts : List Token} {e : Expr}
    (h : Phrase levels 0 (.funKw :: ts) e) :
    ∃ param bs body, ts = .ident param :: .arrow :: bs ∧ e = .func param body ∧
      ∃ m < levels, Phrase m 0 bs body := by
  generalize hlayer : 0 = layer, hts : Token.funKw :: ts = us at h
  cases h with
  | @func m param bs b hb =>
    cases hts
    exact ⟨param, bs, b, rfl, rfl, m, Nat.lt_succ_self m, hb⟩
  | above _ h =>
    obtain ⟨t, ts', rfl, ht⟩ := h.first
    cases hts
    cases ht (Nat.succ_pos _)
  | @binary _ op => cases op <;> cases hlayer
  | number | bool | var | paren | app => cases hlayer
  | cond | letIn | letRec => cases hts

/-- An expression that begins with `let rec` binds a recursive function. -/
theorem Phrase.of_letRec {levels : Nat} {ts : List Token} {e : Expr}
    (h : Phrase levels 0 (.letKw :: .recKw :: ts) e) :
    ∃ name param fs bs f b,
      ts = .ident name :: .equal :: .funKw :: .ident param :: .arrow :: fs ++ .inKw :: bs ∧
        e = .letRec name param f b ∧ ∃ m < levels, Phrase m 0 fs f ∧ Phrase m 0 bs b := by
  generalize hlayer : 0 = layer, hts : Token.letKw :: Token.recKw :: ts = us at h
  cases h with
  | @letRec m name param fs bs f b hf hb =>
    cases hts
    exact ⟨name, param, fs, bs, f, b, rfl, rfl, m, Nat.lt_succ_self m, hf, hb⟩
  | above _ h =>
    obtain ⟨t, ts', rfl, ht⟩ := h.first
    cases hts
    cases ht (Nat.succ_pos _)
  | @binary _ op => cases op <;> cases hlayer
  | number | bool | var | paren | app => cases hlayer
  | cond | letIn | func => cases hts

/-- A number is written with parentheses at most. -/
theorem Phrase.inKw_not_mem {levels layer : Nat} {ts : List Token} {n : Int}
    (h : Phrase levels layer ts (.int n)) : Token.inKw ∉ ts := by
  generalize he : Expr.int n = e at h
  induction h with
  | number => simp
  | paren _ ih => simpa using ih he
  | above _ _ ih => exact ih he
  | bool | var | app | binary | cond | letIn | letRec | func => cases he

/-- The last place of a member is where it does not come again. -/
theorem append_cons_cancel {α : Type} {a : α} {as bs cs ds : List α}
    (h : as ++ a :: bs = cs ++ a :: ds) (hbs : a ∉ bs) (hds : a ∉ ds) : as = cs ∧ bs = ds := by
  rcases List.append_eq_append_iff.mp h with ⟨ws, rfl, hws⟩ | ⟨ws, rfl, hws⟩
  · cases ws with
    | nil => simpa using hws
    | cons w ws =>
      obtain ⟨rfl, rfl⟩ := List.cons.inj hws
      exact absurd (by simp) hbs
  · cases ws with
    | nil => simpa using hws.symm
    | cons w ws =>
      obtain ⟨rfl, rfl⟩ := List.cons.inj hws
      exact absurd (by simp) hds

/-! ## Texts of functions -/

section Texts

variable {cs ds : List Char} {ts us : List Token}

theorem Spells.append_iff (h : Spells cs us) (hds : Apart ds) :
    Spells (cs ++ ds) ts ↔ ∃ vs, ts = us ++ vs ∧ Spells ds vs := by
  rw [spells_append_iff hds]
  constructor
  · rintro ⟨ts₁, ts₂, rfl, h₁, h₂⟩
    exact ⟨ts₂, by rw [h₁.unique h], h₂⟩
  · rintro ⟨vs, rfl, hvs⟩
    exact ⟨us, vs, rfl, h, hvs⟩

theorem spells_rec_append_iff {r : String} :
    Spells ("rec " ++ r).toList ts ↔ ∃ rs, ts = .recKw :: rs ∧ Spells (' ' :: r.toList) rs := by
  have hrec : Spells "rec".toList [.recKw] := .of_readItem rfl rfl .nil
  have htext : ("rec " ++ r).toList = "rec".toList ++ ' ' :: r.toList := by simp
  rw [htext, hrec.append_iff (apart_cons rfl)]
  rfl

/-- The text before `in 0` is read as if it stood alone. -/
theorem spells_letRec_append_iff {r : String} :
    Spells ("let rec " ++ r ++ " in 0").toList ts ↔
      ∃ rs, ts = .letKw :: .recKw :: rs ++ [.inKw, .number "0"] ∧ Spells (' ' :: r.toList) rs := by
  have hlet : Spells "let".toList [.letKw] := .of_readItem rfl rfl .nil
  have hrec : Spells "let rec".toList [.letKw, .recKw] :=
    (hlet.append_iff (apart_cons rfl)).mpr ⟨_, rfl, .layout rfl (.of_readItem rfl rfl .nil)⟩
  have hend : Spells " in 0".toList [.inKw, .number "0"] :=
    .layout rfl (.of_readItem rfl rfl (.layout rfl (.of_readItem rfl rfl .nil)))
  have htext : ("let rec " ++ r ++ " in 0").toList =
      "let rec".toList ++ ' ' :: r.toList ++ " in 0".toList := by simp
  have hapart : Apart " in 0".toList := apart_cons rfl
  rw [htext, spells_append_iff hapart]
  constructor
  · rintro ⟨ts₁, ts₂, rfl, h₁, h₂⟩
    obtain ⟨rs, rfl, hrs⟩ := (hrec.append_iff (apart_cons rfl)).mp h₁
    exact ⟨rs, by rw [h₂.unique hend]; rfl, hrs⟩
  · rintro ⟨rs, rfl, hrs⟩
    exact ⟨_, _, rfl, (hrec.append_iff (apart_cons rfl)).mpr ⟨rs, rfl, hrs⟩, hend⟩

end Texts

/-! ## Levels -/

/-- What the parser gives for a derivation: the expression, if there are enough levels. -/
theorem Expr.parse_of_derives {source : String} {ts : List Token} {n : Nat} {e : Expr}
    (hspells : Spells source.toList ts) (h : Derives .expression n ts e)
    (hread : ∀ t ∈ ts, t.Readable) :
    (n ≤ 200 → Expr.parse source = .ok e) ∧
      (200 < n → ∃ position, Expr.parse source = .error (.nestingTooDeep position)) := by
  refine ⟨fun hn => parse_eq_ok_iff.mpr ⟨ts, hspells, h.phrase hn hread⟩, fun hn => ?_⟩
  obtain ⟨front, back, rfl, hreaches⟩ := h.passes hn
  obtain ⟨located, htokens, hlocated⟩ := tokenize_of_spells hspells
  rw [List.append_assoc] at hlocated
  obtain ⟨fronts, rest, rfl, rfl, -⟩ := List.map_eq_append_iff.mp hlocated
  have htaken : Parser.Taken fronts := by
    intro l hl
    have hmem : l.token ∈ fronts.map (·.token) ++ back :=
      List.mem_append_left _ (List.mem_map_of_mem hl)
    refine ⟨fun heof => ?_, hread _ hmem⟩
    exact hspells.genuine _ (heof ▸ hmem)
  obtain ⟨_, _, _, -, herror⟩ := Parser.sinksIn_of_reaches htaken hreaches rest
  rw [Expr.parse, Parser.runText, htokens, Parser.statement_eq_whole]
  simp only [EStateM.run, herror]
  exact ⟨_, rfl⟩

/-- A function whose body has at most 200 levels is one level further in: it is read, or that level
is the one too many. -/
theorem Code.parse_or_tooDeep {source text : String} {c : Code} {bs ts : List Token} {n : Nat}
    {e : Expr} (htext : Spells text.toList (c.header ++ bs)) (hn : n ≤ 200)
    (hbody : Derives .expression n bs c.body) (hspells : Spells source.toList ts)
    (h : Derives .expression (n + 1) ts e) (hread : ∀ t ∈ ts, t.Readable) :
    Expr.parse source = .ok e ∨
      (∃ position, Expr.parse source = .error (.nestingTooDeep position)) ∧
        WrittenInside text c 200 := by
  obtain ⟨hok, hdeep⟩ := Expr.parse_of_derives hspells h hread
  rcases Nat.lt_or_eq_of_le hn with hlt | rfl
  · exact .inl (hok hlt)
  · obtain ⟨located, htokens, hlocated⟩ := tokenize_of_spells htext
    exact .inr ⟨hdeep (Nat.lt_succ_self 200), located, bs, htokens, hlocated, hbody⟩

/-! ## Both ways to read a function -/

namespace Code

/-- The code of a function is read where the function is read as an expression. -/
theorem parse_of_parse_func {source : String} {position : Nat} {rest : List Located}
    {param : String} {body : Expr} (htokens : tokenize source = .ok (⟨.funKw, position⟩ :: rest))
    (h : Expr.parse source = .ok (.func param body)) :
    Code.parse source = .ok ⟨none, param, body⟩ := by
  obtain ⟨ts, hspells, hphrase⟩ := Expr.parse_eq_ok_iff.mp h
  obtain ⟨located, htokens', hlocated⟩ := tokenize_of_spells hspells
  rw [htokens] at htokens'
  cases htokens'
  obtain ⟨_, bs', rfl, -⟩ := hphrase.first
  obtain ⟨rfl, -⟩ := List.cons.inj hlocated
  obtain ⟨_, bs, _, rfl, heq, m, hm, hbody⟩ := hphrase.of_funKw
  cases heq
  have hgenuine := hspells.genuine
  simp only [List.forall_mem_cons] at hgenuine
  obtain ⟨n, hn, hderives⟩ := hbody.derives hgenuine.2.2.2 .expression rfl
  have hread := hbody.readable hgenuine.2.2.2
  exact parse_eq_ok_iff_header.mpr
    ⟨bs, n, hspells, Nat.le_trans hn (Nat.le_of_lt hm), hderives, hread⟩

theorem parse_of_parse_letRec {r name param : String} {body : Expr}
    (h : Expr.parse ("let rec " ++ r ++ " in 0") = .ok (.letRec name param body (.int 0))) :
    Code.parse ("rec " ++ r) = .ok ⟨some name, param, body⟩ := by
  obtain ⟨ts, hspells, hphrase⟩ := Expr.parse_eq_ok_iff.mp h
  obtain ⟨rs, rfl, hrs⟩ := spells_letRec_append_iff.mp hspells
  obtain ⟨_, _, fs, bs, _, _, htokens, heq, m, hm, hbody, hzero⟩ := hphrase.of_letRec
  cases heq
  -- No `in` stands in a number, so the one that ends the body is the one behind `r`.
  obtain ⟨rfl, -⟩ := append_cons_cancel htokens (by simp) hzero.inKw_not_mem
  have hrec := spells_rec_append_iff.mpr ⟨_, rfl, hrs⟩
  have hgenuine : ∀ t ∈ fs, t.Genuine := fun t ht => hrec.genuine t (by simp [ht])
  obtain ⟨n, hn, hderives⟩ := hbody.derives hgenuine .expression rfl
  exact parse_eq_ok_iff_header.mpr
    ⟨fs, n, hrec, Nat.le_trans hn (Nat.le_of_lt hm), hderives, hbody.readable hgenuine⟩

theorem parse_func_of_parse {source param : String} {body : Expr}
    (h : Code.parse source = .ok ⟨none, param, body⟩) :
    Expr.parse source = .ok (.func param body) ∨
      (∃ position, Expr.parse source = .error (.nestingTooDeep position)) ∧
        WrittenInside source ⟨none, param, body⟩ 200 := by
  obtain ⟨bs, n, hspells, hn, hbody, hread⟩ := parse_eq_ok_iff_header.mp h
  have hall := List.forall_mem_append.mpr ⟨readable_header ⟨none, param, body⟩, hread⟩
  exact parse_or_tooDeep hspells hn hbody hspells hbody.func hall

theorem parse_letRec_of_parse {r name param : String} {body : Expr}
    (h : Code.parse ("rec " ++ r) = .ok ⟨some name, param, body⟩) :
    Expr.parse ("let rec " ++ r ++ " in 0") = .ok (.letRec name param body (.int 0)) ∨
      (∃ position,
        Expr.parse ("let rec " ++ r ++ " in 0") = .error (.nestingTooDeep position)) ∧
        WrittenInside ("rec " ++ r) ⟨some name, param, body⟩ 200 := by
  obtain ⟨bs, n, hspells, hn, hbody, hread⟩ := parse_eq_ok_iff_header.mp h
  obtain ⟨rs, heq, hrs⟩ := spells_rec_append_iff.mp hspells
  obtain ⟨-, rfl⟩ := List.cons.inj heq
  have hzero : Derives .expression 0 [.number "0"] (.int 0) := Derives.number.climb .expression
  have hletRec := @Derives.letRec _ _ name param _ _ _ _ hbody hzero
  rw [Nat.max_zero] at hletRec
  have hall := List.forall_mem_append.mpr ⟨readable_header ⟨some name, param, body⟩, hread⟩
  have hend : ∀ t ∈ [Token.inKw, .number "0"], t.Readable :=
    List.forall_mem_cons.mpr ⟨trivial, List.forall_mem_singleton.mpr rfl⟩
  exact parse_or_tooDeep hspells hn hbody (spells_letRec_append_iff.mpr ⟨_, rfl, hrs⟩) hletRec
    (List.forall_mem_append.mpr ⟨List.forall_mem_cons.mpr ⟨trivial, hall⟩, hend⟩)

/-- A closure with the code can be bound in an environment. -/
theorem decode_closure_of_parse {text name : String} {code : Code}
    (h : Code.parse text = .ok code) (hname : IsIdentifier name) :
    Env.decode (name ++ " = ()[" ++ text ++ "]") =
      .ok (Env.empty.extend name (.closure .empty code)) := by
  have hcode : Code.parse (String.ofList text.toList) = .ok code := by rwa [String.ofList_toList]
  have hclosure : ClosureText 0 ('(' :: [] ++ ')' :: ([] ++ ('[' :: text.toList ++ [']'])))
      (.closure .empty code) := .spans (by decide) (.blank rfl) rfl hcode
  have hvalue : ValueText 0 _ (.closure .empty code) :=
    .padded (@Text.padded_behind [' '] rfl _) (.closure hclosure)
  have hbinding : BindingText 0 _ name (.closure .empty code) :=
    .equal (@Text.padded_before [' '] rfl _) hname hvalue
  refine (Decode.environment_closureIn_eq_ok_iff 0 _ _).mpr (.bindings (.single ?_))
  simpa using hbinding

end Code

/-- Both ways to read a function agree. A text that begins with `fun` is the code of the function
that it is as an expression; and code is such an expression, unless in its body an expression stands
inside 200 levels, which are too many with the one for the function. What `let rec` binds in front of
`in 0` is the same as code behind `rec`, with the same exception. And whatever is read as code can be
bound in an environment. -/
theorem Code.parse_agrees_with_expr :
    (∀ (source param : String) (body : Expr) (position : Nat) (rest : List Located),
      tokenize source = .ok (⟨.funKw, position⟩ :: rest) →
      Expr.parse source = .ok (.func param body) →
        Code.parse source = .ok ⟨none, param, body⟩) ∧
    (∀ (source param : String) (body : Expr), Code.parse source = .ok ⟨none, param, body⟩ →
      Expr.parse source = .ok (.func param body) ∨
        (∃ position, Expr.parse source = .error (.nestingTooDeep position)) ∧
          WrittenInside source ⟨none, param, body⟩ 200) ∧
    (∀ (r name param : String) (body : Expr),
      Expr.parse ("let rec " ++ r ++ " in 0") = .ok (.letRec name param body (.int 0)) →
        Code.parse ("rec " ++ r) = .ok ⟨some name, param, body⟩) ∧
    (∀ (r name param : String) (body : Expr),
      Code.parse ("rec " ++ r) = .ok ⟨some name, param, body⟩ →
        Expr.parse ("let rec " ++ r ++ " in 0") = .ok (.letRec name param body (.int 0)) ∨
          (∃ position,
            Expr.parse ("let rec " ++ r ++ " in 0") = .error (.nestingTooDeep position)) ∧
            WrittenInside ("rec " ++ r) ⟨some name, param, body⟩ 200) ∧
    ∀ (text name : String) (code : Code), Code.parse text = .ok code → IsIdentifier name →
      Env.decode (name ++ " = ()[" ++ text ++ "]") =
        .ok (Env.empty.extend name (.closure .empty code)) :=
  ⟨fun _ _ _ _ _ htokens h => parse_of_parse_func htokens h,
    fun _ _ _ h => parse_func_of_parse h,
    fun _ _ _ _ h => parse_of_parse_letRec h,
    fun _ _ _ _ h => parse_letRec_of_parse h,
    fun _ _ _ h hname => decode_closure_of_parse h hname⟩

/-- A function in parentheses further in, and a recursive one with a binding in its body: each is
read in both ways, and the recursive one is bound in an environment. -/
theorem Code.parse_agrees_with_expr_binding :
    Expr.parse "fun x->(fun y->x)" = .ok (.func "x" (.func "y" (.var "x"))) ∧
      Code.parse "fun x->(fun y->x)" = .ok ⟨none, "x", .func "y" (.var "x")⟩ ∧
      Code.parse ("rec " ++ "f=fun n->let m=n in f(m)") =
        .ok ⟨some "f", "n", .letIn "m" (.var "n") (.app (.var "f") (.var "m"))⟩ ∧
      Env.decode ("g" ++ " = ()[" ++ ("rec " ++ "f=fun n->let m=n in f(m)") ++ "]") =
        .ok (Env.empty.extend "g" (.closure .empty
          ⟨some "f", "n", .letIn "m" (.var "n") (.app (.var "f") (.var "m"))⟩)) := by
  obtain ⟨hfunc, -, hletRec, -, hdecode⟩ := parse_agrees_with_expr
  have htokens : tokenize "fun x->(fun y->x)" = .ok [⟨.funKw, 0⟩, ⟨.ident "x", 4⟩, ⟨.arrow, 5⟩,
      ⟨.openParen, 7⟩, ⟨.funKw, 8⟩, ⟨.ident "y", 12⟩, ⟨.arrow, 13⟩, ⟨.ident "x", 15⟩,
      ⟨.closeParen, 16⟩, ⟨.eof, 17⟩] := eq_ok_of_toOption (by decide +kernel)
  have hparse : Expr.parse "fun x->(fun y->x)" = .ok (.func "x" (.func "y" (.var "x"))) :=
    eq_ok_of_toOption (by decide +kernel)
  have hbound : Expr.parse ("let rec " ++ "f=fun n->let m=n in f(m)" ++ " in 0") =
      .ok (.letRec "f" "n" (.letIn "m" (.var "n") (.app (.var "f") (.var "m"))) (.int 0)) :=
    eq_ok_of_toOption (by decide +kernel)
  have hcode := hletRec _ _ _ _ hbound
  exact ⟨hparse, hfunc _ _ _ _ _ htokens hparse, hcode, hdecode _ _ _ hcode (by decide +kernel)⟩

end BigStep
