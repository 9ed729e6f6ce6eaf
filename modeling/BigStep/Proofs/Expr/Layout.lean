import BigStep.Proofs.Expr.RoundTrip
import BigStep.Proofs.Token.Spacing

/-!
# Layout is irrelevant

The parser reads tokens and not positions: these are copied into errors and looked at nowhere. So
texts with the same tokens are the same expression, or the same error at another place; and
tokens stay the same wherever there is layout between them.

* `Blind p`: without positions the parser does the same, and fails with the same errors.
  One lemma for each parser, up to `blind_statement`.
* `Expr.parse_layout_irrelevant`: the spacing of a text that has tokens can be changed.
-/

namespace BigStep

/-- The token without its position. -/
def Located.unplaced (l : Located) : Located := ⟨l.token, 0⟩

/-- The error without its position. -/
def ParseError.unplaced : ParseError → ParseError
  | unknownCharacter char _ => .unknownCharacter char 0
  | unexpectedToken expected found _ => .unexpectedToken expected found 0
  | literalTooLarge literal _ => .literalTooLarge literal 0
  | nestingTooDeep _ => .nestingTooDeep 0

/-- Lists with the same tokens differ in positions only. -/
theorem map_unplaced_eq {s t : List Located} (h : s.map (·.token) = t.map (·.token)) :
    s.map Located.unplaced = t.map Located.unplaced := by
  have := congrArg (List.map fun token => (⟨token, 0⟩ : Located)) h
  rwa [List.map_map, List.map_map] at this

namespace Parser

section Blind

variable {α β : Type}

/-- A result without positions. -/
def unplaced : EStateM.Result ParseError (List Located) α →
    EStateM.Result ParseError (List Located) α
  | .ok a rest => .ok a (rest.map Located.unplaced)
  | .error e rest => .error e.unplaced (rest.map Located.unplaced)

/-- The parser does not look at positions. -/
def Blind (p : Parser α) : Prop := ∀ s, p (s.map Located.unplaced) = unplaced (p s)

theorem blind_pure (a : α) : Blind (pure a) := fun _ => rfl

theorem Blind.bind {p : Parser α} {f : α → Parser β} (hp : Blind p) (hf : ∀ a, Blind (f a)) :
    Blind (p >>= f) := by
  intro s
  cases h : p s with
  | ok a t => rw [bind_of_ok ((hp s).trans (by rw [h]; rfl)), bind_of_ok h, hf a t]
  | error e t =>
    rw [bind_of_error ((hp s).trans (by rw [h]; rfl)), bind_of_error h]
    rfl

theorem blind_peek? : Blind peek? := by
  intro s
  cases s <;> rfl

/-- A token is taken with its position, which may only get into an error. -/
theorem blind_take?_bind {f : Option Located → Parser β}
    (hf : ∀ found s, f (found.map Located.unplaced) (s.map Located.unplaced) =
      unplaced (f found s)) : Blind (take? >>= f) := by
  intro s
  rw [take?_bind, take?_bind, ← hf, List.head?_map, List.map_tail]

theorem unexpected_unplaced (expected : Expected) (found : Option Located) (s : List Located) :
    (unexpected expected (found.map Located.unplaced) : Parser α) (s.map Located.unplaced) =
      unplaced ((unexpected expected found : Parser α) s) := by
  cases found <;> rfl

theorem blind_expect (t : Token) : Blind (expect t) := by
  refine blind_take?_bind fun found s => ?_
  have htoken : (found.map Located.unplaced).map (·.token) = found.map (·.token) := by
    cases found <;> rfl
  rw [htoken]
  split
  · rfl
  · exact unexpected_unplaced _ found s

theorem blind_identifier : Blind identifier := by
  refine blind_take?_bind fun found s => ?_
  obtain _ | ⟨token, position⟩ := found
  · rfl
  · cases token <;> rfl

theorem blind_iterate {step : α → Parser (Option α)} (hstep : ∀ a, Blind (step a)) (rounds : Nat)
    (a : α) : Blind (iterate step rounds a) := by
  induction rounds generalizing a with
  | zero => exact blind_pure a
  | succ rounds ih =>
    refine (hstep a).bind fun o => ?_
    cases o with
    | none => exact blind_pure a
    | some b => exact ih b

theorem blind_repeatFrom {step : α → Parser (Option α)} (hstep : ∀ a, Blind (step a)) (a : α) :
    Blind (repeatFrom step a) := by
  intro s
  rw [repeatFrom, repeatFrom, List.length_map]
  exact blind_iterate hstep _ a s

end Blind

section Layers

variable {inner : Parser Expr}

theorem blind_primary (hinner : Blind inner) : Blind (primary inner) := by
  refine blind_take?_bind fun found s => ?_
  obtain _ | ⟨token, position⟩ := found
  · rfl
  cases token with
  | number digits =>
    simp only [Option.map_some, Located.unplaced]
    cases Integer.ofText? digits.toList <;> rfl
  | openParen =>
    have hparen : Blind (do let e ← inner; expect .closeParen; pure e) :=
      hinner.bind fun e => (blind_expect _).bind fun _ => blind_pure e
    exact hparen s
  | _ => rfl

theorem blind_argument? (hinner : Blind inner) (f : Expr) : Blind (argument? inner f) := by
  refine blind_peek?.bind fun token? => ?_
  cases token? with
  | none => exact blind_pure none
  | some token =>
    dsimp only
    split
    · exact (blind_primary hinner).bind fun a => blind_pure _
    · exact blind_pure none

theorem blind_application (hinner : Blind inner) : Blind (application inner) :=
  (blind_primary hinner).bind fun f => blind_repeatFrom (blind_argument? hinner) f

theorem blind_operation? {operand : Parser Expr} (hoperand : Blind operand)
    (ops : List Operator) (a : Expr) : Blind (operation? ops operand a) := by
  refine blind_peek?.bind fun token? => ?_
  cases token?.bind Token.operator? with
  | none => exact blind_pure none
  | some op =>
    dsimp only
    split
    · exact blind_take?_bind fun _ s => (hoperand.bind fun b => blind_pure _) s
    · exact blind_pure none

theorem blind_chain {operand : Parser Expr} (hoperand : Blind operand) (ops : List Operator) :
    Blind (chain ops operand) :=
  hoperand.bind fun a => blind_repeatFrom (blind_operation? hoperand ops) a

theorem blind_comparison (hinner : Blind inner) : Blind (comparison inner) :=
  blind_chain (blind_chain (blind_chain (blind_application hinner) _) _) _

theorem blind_condForm (hinner : Blind inner) : Blind (condForm inner) :=
  hinner.bind fun _ => (blind_expect _).bind fun _ => hinner.bind fun _ =>
    (blind_expect _).bind fun _ => hinner.bind fun _ => blind_pure _

theorem blind_letForm (hinner : Blind inner) : Blind (letForm inner) :=
  blind_identifier.bind fun _ => (blind_expect _).bind fun _ => hinner.bind fun _ =>
    (blind_expect _).bind fun _ => hinner.bind fun _ => blind_pure _

theorem blind_letRecForm (hinner : Blind inner) : Blind (letRecForm inner) :=
  blind_identifier.bind fun _ => (blind_expect _).bind fun _ => (blind_expect _).bind fun _ =>
    blind_identifier.bind fun _ => (blind_expect _).bind fun _ => hinner.bind fun _ =>
      (blind_expect _).bind fun _ => hinner.bind fun _ => blind_pure _

theorem blind_funcForm (hinner : Blind inner) : Blind (funcForm inner) :=
  blind_identifier.bind fun _ => (blind_expect _).bind fun _ => hinner.bind fun _ => blind_pure _

theorem blind_form (hinner : Blind inner) : Blind (form inner) := by
  refine blind_peek?.bind fun token? => ?_
  split
  · exact blind_take?_bind fun _ s => blind_condForm hinner s
  · refine blind_take?_bind fun _ s => blind_peek?.bind (fun next? => ?_) s
    split
    · exact blind_take?_bind fun _ s => blind_letRecForm hinner s
    · exact blind_letForm hinner
  · exact blind_take?_bind fun _ s => blind_funcForm hinner s
  · exact blind_comparison hinner

end Layers

theorem blind_expression (room : Nat) : Blind (expression room) := by
  induction room with
  | zero =>
    intro s
    cases s <;> rfl
  | succ room ih => exact blind_form ih

theorem blind_statement : Blind statement :=
  (blind_expression _).bind fun e => (blind_expect _).bind fun _ => blind_pure e

/-- A parser that does not look at positions gives the same for texts with the same tokens. -/
theorem Blind.runText_eq {α : Type} {p : Parser α} (hp : Blind p) {source source' : String}
    {located located' : List Located} (h : tokenize source = .ok located)
    (h' : tokenize source' = .ok located')
    (htokens : located.map (·.token) = located'.map (·.token)) :
    (p.runText source).mapError ParseError.unplaced =
      (p.runText source').mapError ParseError.unplaced := by
  have hrun {text : String} {tokens : List Located} (htext : tokenize text = .ok tokens) :
      (p.runText text).mapError ParseError.unplaced =
        match p (tokens.map Located.unplaced) with
        | .ok a _ => .ok a
        | .error e _ => .error e := by
    rw [hp, runText, htext]
    simp only [EStateM.run]
    cases p tokens <;> rfl
  rw [hrun h, hrun h', map_unplaced_eq htokens]

end Parser

/-- A text that has tokens consists of their lexemes and of layout. With any layout around the
lexemes, as long as there is some between any two of them, the text has the same tokens; and it is
the same expression, or fails with the same error at another position. -/
theorem Expr.parse_layout_irrelevant {source : String} {located : List Located}
    (h : tokenize source = .ok located) :
    ∃ ts, located.map (·.token) = ts ++ [.eof] ∧
      (∃ gaps last, Surrounds ts.length gaps last ∧
        source.toList = spaced gaps (ts.map (·.spelling.toList)) last) ∧
      ∀ gaps last, Separates ts.length gaps last → ∀ text : String,
        text.toList = spaced gaps (ts.map (·.spelling.toList)) last →
          (∃ located', tokenize text = .ok located' ∧
            located'.map (·.token) = located.map (·.token)) ∧
          (Expr.parse text).mapError ParseError.unplaced =
            (Expr.parse source).mapError ParseError.unplaced := by
  obtain ⟨ts, hts, hspells⟩ := spells_of_tokenize h
  refine ⟨ts, hts, hspells.exists_spaced, fun gaps last hgaps text htext => ?_⟩
  have hspaced : Spells text.toList ts := by
    rw [htext]
    exact spells_spaced (fun t ht => ⟨hspells.genuine t ht, hspells.spelling_ne t ht⟩) hgaps
  obtain ⟨located', h', hts'⟩ := tokenize_of_spells hspaced
  have hsame : located'.map (·.token) = located.map (·.token) := hts'.trans hts.symm
  exact ⟨⟨located', h', hsame⟩, Parser.blind_statement.runText_eq h' h hsame⟩

/-- Tokens that stand close together, moved to lines of their own. -/
theorem Expr.parse_layout_irrelevant_apart :
    (∃ located, tokenize "let f=fun x->x+1in f(2)" = .ok located ∧
      ∃ located', tokenize "let f = fun x ->\r\n\tx + 1\n\x0cin f ( 2 )\n" = .ok located' ∧
        located'.map (·.token) = located.map (·.token)) ∧
      (Expr.parse "let f = fun x ->\r\n\tx + 1\n\x0cin f ( 2 )\n").mapError
          ParseError.unplaced =
        (Expr.parse "let f=fun x->x+1in f(2)").mapError ParseError.unplaced := by
  have htokens : tokenize "let f=fun x->x+1in f(2)" = .ok [⟨.letKw, 0⟩, ⟨.ident "f", 4⟩,
      ⟨.equal, 5⟩, ⟨.funKw, 6⟩, ⟨.ident "x", 10⟩, ⟨.arrow, 11⟩, ⟨.ident "x", 13⟩, ⟨.plus, 14⟩,
      ⟨.number "1", 15⟩, ⟨.inKw, 16⟩, ⟨.ident "f", 19⟩, ⟨.openParen, 20⟩, ⟨.number "2", 21⟩,
      ⟨.closeParen, 22⟩, ⟨.eof, 23⟩] :=
    eq_ok_of_toOption (by decide +kernel)
  obtain ⟨ts, hts, -, hspaced⟩ := parse_layout_irrelevant htokens
  have heof : ts ++ [.eof] = [.letKw, .ident "f", .equal, .funKw, .ident "x", .arrow, .ident "x",
      .plus, .number "1", .inKw, .ident "f", .openParen, .number "2", .closeParen] ++ [.eof] :=
    hts.symm
  obtain rfl := List.append_cancel_right heof
  obtain ⟨hsame, hparse⟩ := hspaced [[], [' '], [' '], [' '], [' '], [' '], ['\r', '\n', '\t'],
    [' '], [' '], ['\n', '\x0c'], [' '], [' '], [' '], [' ']] ['\n']
    ⟨⟨rfl, by decide, rfl⟩, by decide⟩ "let f = fun x ->\r\n\tx + 1\n\x0cin f ( 2 )\n"
    (by decide +kernel)
  exact ⟨⟨_, htokens, hsame⟩, hparse⟩

end BigStep
