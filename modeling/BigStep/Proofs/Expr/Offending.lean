import BigStep.Proofs.Expr.Nesting
import BigStep.Proofs.Token.Positions

/-!
# The offending token

A syntax error points at the first token that is wrong.

* `not_viable_of_refuses`: what a parser with any number of levels refuses cannot be completed. A
  completion may hold numbers that no parser reads; they are first replaced by ones that it does.
* `diagnosis_of_whole`: what a parser of whole texts has found out when it fails.
* `Expr.parse_error_offending`: the token at the position of the error.
-/

namespace BigStep

/-! ## Numbers in range -/

/-- A number that is too large becomes zero. -/
def Token.tamed : Token → Token
  | number digits =>
    .number <|
      if Integer.ofText? digits.toList = some (decimalValue digits : Int) then digits else "0"
  | t => t

namespace Token

theorem tamed_of_readable {t : Token} (h : t.Readable) : t.tamed = t := by
  cases t with
  | number digits => exact congrArg number (if_pos h)
  | _ => rfl

theorem readable_tamed (t : Token) : t.tamed.Readable := by
  cases t with
  | number digits =>
    by_cases h : (number digits).Readable
    · rwa [tamed_of_readable h]
    · have hzero : (number digits).tamed = .number "0" := congrArg number (if_neg h)
      rw [hzero]
      exact (by decide : Integer.ofText? "0".toList = some (decimalValue "0" : Int))
  | _ => trivial

theorem resembles_tamed (t : Token) : t.Resembles t.tamed := by
  cases t with
  | number digits => exact .number _ _
  | _ => exact .same _

end Token

/-- With other numbers, the tokens derive another expression. -/
theorem Derives.tamed {nt : Nonterminal} {n : Nat} {ts : List Token} {e : Expr}
    (h : Derives nt n ts e) : ∃ e', Derives nt n (ts.map Token.tamed) e' := by
  induction h with
  | number => exact ⟨_, .number⟩
  | var => exact ⟨_, .var⟩
  | bool => exact ⟨_, .bool⟩
  | ofComparison _ ih => exact ih.imp fun _ => .ofComparison
  | ofAdditive _ ih => exact ih.imp fun _ => .ofAdditive
  | ofMultiplicative _ ih => exact ih.imp fun _ => .ofMultiplicative
  | ofApplication _ ih => exact ih.imp fun _ => .ofApplication
  | ofPrimary _ ih => exact ih.imp fun _ => .ofPrimary
  | app _ _ ihf iha =>
    obtain ⟨_, hf⟩ := ihf
    obtain ⟨_, ha⟩ := iha
    exact ⟨_, by simpa using hf.app ha⟩
  | less _ _ ihl ihr =>
    obtain ⟨_, hl⟩ := ihl
    obtain ⟨_, hr⟩ := ihr
    exact ⟨_, by simpa [Token.tamed] using hl.less hr⟩
  | plus _ _ ihl ihr =>
    obtain ⟨_, hl⟩ := ihl
    obtain ⟨_, hr⟩ := ihr
    exact ⟨_, by simpa [Token.tamed] using hl.plus hr⟩
  | minus _ _ ihl ihr =>
    obtain ⟨_, hl⟩ := ihl
    obtain ⟨_, hr⟩ := ihr
    exact ⟨_, by simpa [Token.tamed] using hl.minus hr⟩
  | times _ _ ihl ihr =>
    obtain ⟨_, hl⟩ := ihl
    obtain ⟨_, hr⟩ := ihr
    exact ⟨_, by simpa [Token.tamed] using hl.times hr⟩
  | paren _ ih =>
    obtain ⟨_, h⟩ := ih
    exact ⟨_, by simpa [Token.tamed] using h.paren⟩
  | func _ ih =>
    obtain ⟨_, h⟩ := ih
    exact ⟨_, by simpa [Token.tamed] using h.func⟩
  | letIn _ _ ihv ihb =>
    obtain ⟨_, hv⟩ := ihv
    obtain ⟨_, hb⟩ := ihb
    exact ⟨_, by simpa [Token.tamed] using hv.letIn hb⟩
  | letRec _ _ ihf ihb =>
    obtain ⟨_, hf⟩ := ihf
    obtain ⟨_, hb⟩ := ihb
    exact ⟨_, by simpa [Token.tamed] using hf.letRec hb⟩
  | cond _ _ _ ihc iht ihe =>
    obtain ⟨_, hc⟩ := ihc
    obtain ⟨_, ht⟩ := iht
    obtain ⟨_, he⟩ := ihe
    exact ⟨_, by simpa [Token.tamed] using hc.cond ht he⟩

/-! ## Whole texts -/

namespace Parser

/-- A whole text for which `room` levels are left. -/
def whole (room : Nat) : Parser Expr := do
  let e ← expression room
  expect .eof
  pure e

theorem statement_eq_whole : statement = whole 201 := rfl

/-- The tokens of a derivation, with the end behind them, are read as a whole text. -/
theorem whole_of_derives {n : Nat} {us : List Token} {e : Expr} (h : Derives .expression n us e)
    (hread : ∀ t ∈ us, t.Readable) {room : Nat} (hroom : n < room) {s : List Located}
    (hs : s.map (·.token) = us ++ [.eof]) : whole room s = .ok e [] := by
  obtain ⟨used, last, rfl, hused, hlast⟩ := List.map_eq_append_iff.mp hs
  obtain ⟨⟨_, position⟩, rfl, rfl⟩ := List.map_eq_singleton_iff.mp hlast
  obtain ⟨levels, rfl⟩ : ∃ levels, room = levels + 1 := ⟨room - 1, by omega⟩
  have hphrase := h.phrase (Nat.le_of_lt_succ hroom) hread
  have he : expression (levels + 1) (used ++ [⟨.eof, position⟩]) = .ok e [⟨.eof, position⟩] :=
    takes_expression (layerParser_of_phrase hphrase) used _ hused (stops_cons rfl rfl)
  exact bind_of_ok he

/-- Where every parser refuses a token, the tokens up to it cannot be completed. -/
theorem not_viable_of_refuses {used : List Located} {l : Located} (hused : Taken used) {room : Nat}
    (h : ∀ extra, Refuses (whole (room + extra)) used l) :
    ¬ Viable (used.map (·.token) ++ [l.token]) := by
  rintro ⟨more, us, n, e, hderives, heq⟩
  obtain ⟨e', htamed⟩ := hderives.tamed
  have hread : ∀ t ∈ us.map Token.tamed, t.Readable := by
    intro t ht
    obtain ⟨u, -, rfl⟩ := List.mem_map.mp ht
    exact u.readable_tamed
  -- The tokens used up stay as they are, and the next one is replaced by one that it resembles.
  obtain ⟨l', rest', hl', htokens⟩ : ∃ (l' : Located) (rest' : List Located),
      l.token.Resembles l'.token ∧
        (used ++ l' :: rest').map (·.token) = us.map Token.tamed ++ [.eof] := by
    refine ⟨⟨l.token.tamed, l.position⟩, more.map fun t => ⟨t.tamed, 0⟩,
      l.token.resembles_tamed, ?_⟩
    have hsame : (used.map (·.token)).map Token.tamed = used.map (·.token) := by
      rw [List.map_map]
      exact List.map_congr_left fun u hu => Token.tamed_of_readable (hused u hu).2
    have heof : Token.eof.tamed = .eof := rfl
    have hmap := congrArg (List.map Token.tamed) heq
    simp only [List.map_append, hsame] at hmap
    simpa [Function.comp_def, heof] using hmap
  have hok := @whole_of_derives _ _ _ htamed hread (room + (n + 1)) (by omega) _ htokens
  obtain ⟨err, t, herr⟩ := h (n + 1) l' rest' hl'
  rw [hok] at herr
  cases herr

/-- What a parser of whole texts has found out when it fails. -/
theorem diagnosis_of_whole {room room' : Nat} (hroom : room ≤ room') {s t : List Located}
    {err : ParseError} (hs : Complete s) (h : whole room s = .error err t) :
    ∃ used l rest, s = used ++ l :: rest ∧ Taken used ∧
      Diagnosis (fun u => Viable (used.map (·.token) ++ [u]))
        (Reaches .expression (used.map (·.token)) .expression room) (Refuses (whole room') used l) l
        err := by
  cases tracks_expression hroom s hs with
  | @error used l rest t' err' heq hused hp hd =>
    have herr : whole room s = .error err' t' := bind_of_error hp
    rw [herr] at h
    cases h
    refine ⟨used, l, rest, heq, hused,
      hd.imp (fun u hu => hu.viable) id fun hrefuses l' rest' hl => ?_⟩
    obtain ⟨err', t', herr'⟩ := hrefuses l' rest' hl
    exact ⟨err', t', bind_of_error herr'⟩
  | @ok used l rest e heq hused hp hQ hgives =>
    have hend : whole room s = (do expect .eof; pure e : Parser Expr) (l :: rest) := bind_of_ok hp
    rw [hend] at h
    by_cases hl : l.token = .eof
    · have hok : expect .eof (l :: rest) = .ok () rest :=
        expect_eq_ok.mpr ⟨l.position, by rw [← hl]⟩
      rw [bind_of_ok hok] at h
      cases h
    · rw [bind_of_error (expect_of_ne hl)] at h
      cases h
      refine ⟨used, l, _, heq, hused, .unexpected (fun u hu => ?_) fun l' rest' hl' => ?_⟩
      · obtain ⟨n, hderives⟩ := hQ
        obtain rfl := Token.eq_eof_of_kind hu.1 hu.2
        exact ⟨[], _, n, e, hderives, by simp⟩
      · have hne : l'.token ≠ .eof := by
          intro heof
          rw [heof] at hl'
          exact hl (hl'.eq_of_ne nofun)
        exact ⟨_, _, (bind_of_ok (hgives l' rest' hl')).trans (bind_of_error (expect_of_ne hne))⟩

theorem whole_of_parse {source : String} {located : List Located} {err : ParseError}
    (htokens : tokenize source = .ok located) (h : Expr.parse source = .error err) :
    ∃ t, whole 201 located = .error err t := by
  rw [Expr.parse, runText, htokens, statement_eq_whole] at h
  simp only [EStateM.run] at h
  split at h <;> cases h
  exact ⟨_, by assumption⟩

/-- What the parser has found out about a text when it fails. The tokens that it has taken are the
same for every number of levels, as the position of the error tells them. -/
theorem diagnosis_of_parse {source : String} {located : List Located} {err : ParseError}
    (htokens : tokenize source = .ok located) (h : Expr.parse source = .error err) :
    ∃ before l after, located = before ++ l :: after ∧ Taken before ∧
      Diagnosis (fun u => Viable (before.map (·.token) ++ [u]))
        (Reaches .expression (before.map (·.token)) .expression 201)
        (¬ Viable (before.map (·.token) ++ [l.token])) l err := by
  have hcomplete := complete_of_tokenize htokens
  obtain ⟨t, hwhole⟩ := whole_of_parse htokens h
  obtain ⟨before, l, after, rfl, htaken, hd⟩ :=
    diagnosis_of_whole (Nat.le_refl 201) hcomplete hwhole
  refine ⟨before, l, after, rfl, htaken, ?_⟩
  -- With levels to spare the parser refuses the same token, as the error points at just one.
  have hall : ∀ extra, Diagnosis (fun u => Viable (before.map (·.token) ++ [u]))
      (Reaches .expression (before.map (·.token)) .expression 201)
      (Refuses (whole (201 + extra)) before l) l err := by
    intro extra
    obtain ⟨before', l', after', heq, -, hd'⟩ :=
      diagnosis_of_whole (Nat.le_add_right 201 extra) hcomplete hwhole
    obtain ⟨rfl, rfl⟩ := eq_of_position_eq htokens heq (hd.position.symm.trans hd'.position)
    exact hd'
  exact (Diagnosis.all hall).imp_refused (not_viable_of_refuses htaken)

/-- Where an expression would start inside 201 levels, the parser runs out of them. -/
theorem sinksIn_of_reaches {front : List Located} (htaken : Taken front)
    (h : Reaches .expression (front.map (·.token)) .expression 201) (rest : List Located) :
    SinksIn (whole 201) front rest := by
  have hread : ∀ t ∈ front.map (·.token), t.Readable := by
    intro t ht
    obtain ⟨u, hu, rfl⟩ := List.mem_map.mp ht
    exact (htaken u hu).2
  have hsinks : Sinks (expression 201) (front.map (·.token)) :=
    sinks_of_reaches h (Nat.lt_succ_self 200) hread
  exact hsinks.bind _ front rest rfl

theorem nestingTooDeep_of_reaches {source : String} {front rest : List Located} {err : ParseError}
    (htokens : tokenize source = .ok (front ++ rest)) (h : Expr.parse source = .error err)
    (htaken : Taken front) (hreaches : Reaches .expression (front.map (·.token)) .expression 201) :
    ∃ back, back <:+ front ∧
      err = .nestingTooDeep (((back ++ rest).head?.map (·.position)).getD 0) := by
  obtain ⟨t, hwhole⟩ := whole_of_parse htokens h
  obtain ⟨ahead, back, t', rfl, herr⟩ := sinksIn_of_reaches htaken hreaches rest
  rw [herr] at hwhole
  cases hwhole
  exact ⟨back, List.suffix_append ahead back, rfl⟩

/-- Before the token at the position of the error, no expression would start inside 201 levels. -/
theorem not_reaches_of_position {source : String} {front back after : List Located} {l : Located}
    {err : ParseError} (htokens : tokenize source = .ok (front ++ back ++ l :: after))
    (h : Expr.parse source = .error err) (htaken : Taken front) (hback : back ≠ [])
    (hposition : err.position = l.position) :
    ¬ Reaches .expression (front.map (·.token)) .expression 201 := by
  intro hreaches
  have hne := position_ne_of_tokenize htokens
  rw [List.append_assoc] at htokens
  obtain ⟨more, hmore, rfl⟩ := nestingTooDeep_of_reaches htokens h htaken hreaches
  -- The parser would have stopped at a token before this one.
  obtain ⟨k, ks, hk⟩ : ∃ k ks, more ++ back = k :: ks :=
    List.exists_cons_of_ne_nil (by simp [hback])
  rw [← List.append_assoc, hk] at hposition
  have hmem : k ∈ front ++ back ++ after := by
    rcases List.mem_append.mp (hk ▸ List.mem_cons_self : k ∈ more ++ back) with hk | hk
    · simp [hmore.subset hk]
    · simp [hk]
  exact hne k hmem hposition

end Parser

/-- A number from a text that cannot be read is beyond the range. -/
theorem Token.Genuine.lt_decimalValue {digits : String} (h : (Token.number digits).Genuine)
    (hn : Integer.ofText? digits.toList = none) : 9223372036854775807 < decimalValue digits := by
  refine Nat.lt_of_not_le fun hle => ?_
  have hsome := (Integer.ofText?_eq_some_iff h.1 h.2).mpr ⟨rfl, hle⟩
  rw [hn] at hsome
  cases hsome

/-- A text that has tokens but is no expression: the error has the position of just one token, and
the tokens before that one can be completed. If it names what was expected, the token cannot stand
there and everything that was expected can. If it names a literal, that is the token, a number
beyond `2^63 - 1`, and it can stand there. Nesting is too deep just where an expression would start
inside 201 levels, and none would start there before. -/
theorem Expr.parse_error_offending {source : String} {located : List Located} {err : ParseError}
    (htokens : tokenize source = .ok located) (h : Expr.parse source = .error err) :
    ∃ before l after, located = before ++ l :: after ∧ err.position = l.position ∧
      (∀ k ∈ before ++ after, k.position ≠ err.position) ∧
      Viable (before.map (·.token)) ∧
      (∀ char position, err ≠ .unknownCharacter char position) ∧
      (∀ expected found position, err = .unexpectedToken expected found position →
        found = l.token.kind ∧ ¬ Viable (before.map (·.token) ++ [l.token]) ∧
          ∀ t, expected.Admits t → Viable (before.map (·.token) ++ [t])) ∧
      (∀ literal position, err = .literalTooLarge literal position →
        l.token = .number literal ∧ 9223372036854775807 < decimalValue literal ∧
          Viable (before.map (·.token) ++ [l.token])) ∧
      ((∃ position, err = .nestingTooDeep position) ↔
        Reaches .expression (before.map (·.token)) .expression 201) ∧
      ∀ front back, before = front ++ back → back ≠ [] →
        ¬ Reaches .expression (front.map (·.token)) .expression 201 := by
  obtain ⟨before, l, after, rfl, htaken, hd⟩ := Parser.diagnosis_of_parse htokens h
  have hdeep : Reaches .expression (before.map (·.token)) .expression 201 →
      ∃ position, err = .nestingTooDeep position := by
    intro hreaches
    obtain ⟨back, -, herr⟩ := Parser.nestingTooDeep_of_reaches htokens h htaken hreaches
    exact ⟨_, herr⟩
  have hfirst : ∀ front back, before = front ++ back → back ≠ [] →
      ¬ Reaches .expression (front.map (·.token)) .expression 201 := by
    rintro front back rfl hback
    have hfront := (List.forall_mem_append.mp htaken).1
    exact Parser.not_reaches_of_position htokens h hfront hback hd.position
  refine ⟨before, l, after, rfl, hd.position, ?_, ?_⟩
  · rw [hd.position]
    exact position_ne_of_tokenize htokens
  cases hd with
  | unexpected hexpected hviable =>
    obtain ⟨t, ht⟩ := Expected.exists_admits _
    refine ⟨(hexpected t ht).of_append, nofun, ?_, nofun, ⟨nofun, hdeep⟩, hfirst⟩
    rintro _ _ _ ⟨⟩
    exact ⟨rfl, hviable, hexpected⟩
  | literal ht hn hviable =>
    refine ⟨hviable.of_append, nofun, nofun, ?_, ⟨nofun, hdeep⟩, hfirst⟩
    rintro _ _ ⟨⟩
    have hgenuine := (Parser.complete_of_tokenize htokens).genuine
      (List.mem_append_right before List.mem_cons_self) (by rw [ht]; nofun)
    rw [ht] at hgenuine
    exact ⟨ht, hgenuine.lt_decimalValue hn, ht ▸ hviable⟩
  | tooDeep hreaches =>
    exact ⟨hreaches.begins.viable, nofun, nofun, nofun, ⟨fun _ => hreaches, hdeep⟩, hfirst⟩

/-- Behind an operator an operand is missing. -/
theorem Expr.parse_error_offending_missing_operand :
    ∃ before l after, tokenize "let x = (1 + ) in x" = .ok (before ++ l :: after) ∧
      Expr.parse "let x = (1 + ) in x" =
        .error (.unexpectedToken .expression .closeParen l.position) ∧
      l.token.kind = .closeParen ∧ Viable (before.map (·.token)) ∧
      ¬ Viable (before.map (·.token) ++ [l.token]) ∧
      Viable (before.map (·.token) ++ [.number "2"]) := by
  have htokens : tokenize "let x = (1 + ) in x" = .ok [⟨.letKw, 0⟩, ⟨.ident "x", 4⟩, ⟨.equal, 6⟩,
      ⟨.openParen, 8⟩, ⟨.number "1", 9⟩, ⟨.plus, 11⟩, ⟨.closeParen, 13⟩, ⟨.inKw, 15⟩,
      ⟨.ident "x", 18⟩, ⟨.eof, 19⟩] :=
    eq_ok_of_toOption (by decide +kernel)
  have hparse : Expr.parse "let x = (1 + ) in x" =
      .error (.unexpectedToken .expression .closeParen 13) := by
    rw [Expr.parse, Parser.runText, htokens]
    rfl
  obtain ⟨before, l, after, hlocated, hposition, -, hviable, -, hunexpected, -⟩ :=
    parse_error_offending htokens hparse
  obtain ⟨hkind, hnot, hexpected⟩ := hunexpected _ _ _ rfl
  exact ⟨before, l, after, hlocated ▸ htokens, hposition ▸ hparse, hkind.symm, hviable, hnot,
    hexpected _ rfl⟩

end BigStep
