import BigStep.Proofs.Expr.Viable
import BigStep.Proofs.Token.Positions

/-!
# Why a parser stops

What a parser has found out when it succeeds or fails: which tokens it has taken, which one it has
looked at last, and what it says of that one.

* `Diagnosis fits deep refused l err`: the error is right about the token `l`, given which tokens
  fit in its place, whether that place is too deep and whether the token is refused.
* `Tracks nt room before p p' Q`: `p`, run behind the tokens `before` of a phrase of `nt`, fails
  with such a diagnosis or gives a result with `Q`. A parser never looks further than one token
  ahead, so the same holds on every list with the same tokens up to there, whatever follows; it is
  said of `p'`, which is `p` with more levels to spare. Where `p` does not run out of levels, `p'`
  does what `p` does.
* `TracksAt.append`: a parser that takes some tokens and goes on as another one. The rules for the
  ways to build a parser come from it: `Tracks.bind`, `Tracks.enter`, `Tracks.repeatFrom`.
-/

namespace BigStep

/-- The token can stand where this was expected. The blank is no token of a text, and where an
expression is expected any atom can stand. -/
def Expected.Admits : Expected → Token → Prop
  | token kind, t => t.kind = kind ∧ t ≠ .layout
  | expression, t => t.startsAtom = true

/-- Something can stand there. -/
theorem Expected.exists_admits (expected : Expected) : ∃ t, expected.Admits t := by
  cases expected with
  | expression => exact ⟨.bool true, rfl⟩
  | token kind =>
    cases kind with
    | number => exact ⟨.number "0", rfl, nofun⟩
    | bool => exact ⟨.bool true, rfl, nofun⟩
    | funKw => exact ⟨.funKw, rfl, nofun⟩
    | letKw => exact ⟨.letKw, rfl, nofun⟩
    | recKw => exact ⟨.recKw, rfl, nofun⟩
    | inKw => exact ⟨.inKw, rfl, nofun⟩
    | ifKw => exact ⟨.ifKw, rfl, nofun⟩
    | thenKw => exact ⟨.thenKw, rfl, nofun⟩
    | elseKw => exact ⟨.elseKw, rfl, nofun⟩
    | ident => exact ⟨.ident "x", rfl, nofun⟩
    | arrow => exact ⟨.arrow, rfl, nofun⟩
    | equal => exact ⟨.equal, rfl, nofun⟩
    | plus => exact ⟨.plus, rfl, nofun⟩
    | minus => exact ⟨.minus, rfl, nofun⟩
    | asterisk => exact ⟨.asterisk, rfl, nofun⟩
    | less => exact ⟨.less, rfl, nofun⟩
    | openParen => exact ⟨.openParen, rfl, nofun⟩
    | closeParen => exact ⟨.closeParen, rfl, nofun⟩
    | eof => exact ⟨.eof, rfl, nofun⟩

/-- The tokens are the same, or both are numbers. -/
inductive Token.Resembles : Token → Token → Prop
  | same (t : Token) : Resembles t t
  | number (digits digits' : String) : Resembles (.number digits) (.number digits')

namespace Token.Resembles

variable {t u : Token}

theorem startsAtom (h : t.Resembles u) : u.startsAtom = t.startsAtom := by
  cases h <;> rfl

theorem kind (h : t.Resembles u) : u.kind = t.kind := by
  cases h <;> rfl

theorem operator? (h : t.Resembles u) : u.operator? = t.operator? := by
  cases h <;> rfl

/-- A token that is no number resembles itself alone. -/
theorem eq_of_ne (h : t.Resembles u) (hu : u.kind ≠ .number) : t = u := by
  cases h with
  | same => rfl
  | number => exact absurd rfl hu

end Token.Resembles

/-- The token carries nothing, and is not the end: its kind tells it. -/
def Token.Bare (t : Token) : Prop := t.kind ∉ [Kind.number, .bool, .ident, .eof]

instance : DecidablePred Token.Bare := fun _ => inferInstanceAs (Decidable (_ ∉ _))

namespace Token

variable {t u : Token}

theorem Bare.eq_of_kind_eq (ht : t.Bare) (h : u.kind = t.kind) : u = t := by
  cases t with
  | number | bool | ident | eof | layout => exact absurd ht (by simp [Bare, kind])
  | _ => cases u <;> first | rfl | cases h

theorem Bare.ne_eof (ht : t.Bare) : t ≠ .eof := by
  rintro rfl
  exact absurd ht (by decide)

theorem Bare.ne_number (ht : t.Bare) : t.kind ≠ .number :=
  fun h => ht (by simp [h])

theorem Bare.readable (ht : t.Bare) : t.Readable := by
  cases t with
  | number digits => exact absurd rfl ht.ne_number
  | _ => trivial

theorem exists_ident_of_kind (h : t.kind = .ident) : ∃ name, t = .ident name := by
  cases t with
  | ident name => exact ⟨name, rfl⟩
  | _ => cases h

theorem eq_eof_of_kind (h : t.kind = .eof) (hne : t ≠ .layout) : t = .eof := by
  cases t with
  | eof => rfl
  | layout => exact absurd rfl hne
  | _ => cases h

end Token

theorem Operator.bare_token (op : Operator) : op.token.Bare := by
  cases op <;> decide

theorem Operator.nonterminal_of_layer {op : Operator} {nt : Nonterminal}
    (h : op.precedence = nt.layer) : op.nonterminal = nt := by
  cases op <;> cases nt <;> first | rfl | cases h

/-- The error is right about the token. Where it names what was expected, all of that fits and the
token is refused; a literal that is too large fits; and an expression is nested too deeply where it
is deep. -/
inductive Diagnosis (fits : Token → Prop) (deep refused : Prop) (l : Located) : ParseError → Prop
  | unexpected {expected : Expected} (h : ∀ t, expected.Admits t → fits t) (hrefused : refused) :
      Diagnosis fits deep refused l (.unexpectedToken expected l.token.kind l.position)
  | literal {digits : String} (ht : l.token = .number digits)
      (hn : Integer.ofText? digits.toList = none) (h : fits (.number digits)) :
      Diagnosis fits deep refused l (.literalTooLarge digits l.position)
  | tooDeep (h : deep) : Diagnosis fits deep refused l (.nestingTooDeep l.position)

theorem Diagnosis.imp {fits fits' : Token → Prop} {deep deep' refused refused' : Prop} {l : Located}
    {err : ParseError} (h : Diagnosis fits deep refused l err) (hfits : ∀ t, fits t → fits' t)
    (hdeep : deep → deep') (hrefused : refused → refused') :
    Diagnosis fits' deep' refused' l err := by
  cases h with
  | unexpected h hr => exact .unexpected (fun t ht => hfits t (h t ht)) (hrefused hr)
  | literal ht hn h => exact .literal ht hn (hfits _ h)
  | tooDeep h => exact .tooDeep (hdeep h)

theorem Diagnosis.imp_refused {fits : Token → Prop} {deep refused refused' : Prop} {l : Located}
    {err : ParseError} (h : Diagnosis fits deep refused l err) (himp : refused → refused') :
    Diagnosis fits deep refused' l err :=
  h.imp (fun _ => id) id himp

/-- What is refused for each reason is refused for all of them. -/
theorem Diagnosis.all {ι : Type} [Inhabited ι] {fits : Token → Prop} {deep : Prop}
    {refused : ι → Prop} {l : Located} {err : ParseError}
    (h : ∀ i, Diagnosis fits deep (refused i) l err) :
    Diagnosis fits deep (∀ i, refused i) l err := by
  cases h default with
  | unexpected hexpected _ =>
    refine .unexpected hexpected fun i => ?_
    cases h i
    assumption
  | literal ht hn hfits => exact .literal ht hn hfits
  | tooDeep hdeep => exact .tooDeep hdeep

theorem Diagnosis.position {fits : Token → Prop} {deep refused : Prop} {l : Located}
    {err : ParseError} (h : Diagnosis fits deep refused l err) : err.position = l.position := by
  cases h <;> rfl

namespace Parser

/-! ## Token lists -/

/-- The tokens are those of a text from some place on, with the end behind them. -/
def Complete (s : List Located) : Prop :=
  ∃ before position, s = before ++ [⟨.eof, position⟩] ∧ ∀ l ∈ before, l.token.Genuine

/-- The tokens can be taken by the parser of an expression: the end is not among them, and the
numbers are in range. -/
def Taken (used : List Located) : Prop := ∀ u ∈ used, u.token ≠ .eof ∧ u.token.Readable

theorem taken_nil : Taken [] := fun _ h => absurd h List.not_mem_nil

theorem taken_append {us vs : List Located} (hu : Taken us) (hv : Taken vs) : Taken (us ++ vs) :=
  List.forall_mem_append.mpr ⟨hu, hv⟩

theorem Complete.exists_cons {s : List Located} (h : Complete s) : ∃ l t, s = l :: t := by
  obtain ⟨before, position, rfl, -⟩ := h
  cases before <;> exact ⟨_, _, rfl⟩

theorem Complete.genuine {s : List Located} (h : Complete s) {l : Located} (hl : l ∈ s)
    (hne : l.token ≠ .eof) : l.token.Genuine := by
  obtain ⟨before, position, rfl, hgenuine⟩ := h
  rcases List.mem_append.mp hl with hl | hl
  · exact hgenuine l hl
  · obtain rfl := List.mem_singleton.mp hl
    exact absurd rfl hne

theorem complete_of_tokenize {source : String} {located : List Located}
    (h : tokenize source = .ok located) : Complete located := by
  obtain ⟨before, position, rfl, hspells⟩ := located_of_tokenize h
  exact ⟨before, position, rfl, fun l hl => hspells.genuine _ (List.mem_map_of_mem hl)⟩

theorem Complete.tail {l : Located} {t : List Located} (h : Complete (l :: t))
    (hl : l.token ≠ .eof) : Complete t := by
  obtain ⟨before, position, heq, hgenuine⟩ := h
  cases before with
  | nil =>
    obtain ⟨rfl, -⟩ := List.cons.inj heq
    exact absurd rfl hl
  | cons b before =>
    obtain ⟨rfl, rfl⟩ := List.cons.inj heq
    exact ⟨before, position, rfl, (List.forall_mem_cons.mp hgenuine).2⟩

/-- Behind tokens that are taken, the end is still to come. -/
theorem Complete.of_append {used t : List Located} (h : Complete (used ++ t))
    (hused : Taken used) : Complete t := by
  induction used with
  | nil => exact h
  | cons u used ih =>
    obtain ⟨hu, hused⟩ := List.forall_mem_cons.mp hused
    exact ih (h.tail hu.1) hused

/-- If the next token is replaced by one that it resembles, the first of all tokens resembles the
one before. -/
theorem exists_head_resembles {used : List Located} {l l' : Located} {rest : List Located}
    (rest' : List Located) (h : l.token.Resembles l'.token) {k : Located} {t : List Located}
    (hs : k :: t = used ++ l :: rest) :
    ∃ k' t', used ++ l' :: rest' = k' :: t' ∧ k.token.Resembles k'.token := by
  cases used with
  | nil =>
    obtain ⟨rfl, -⟩ := List.cons.inj hs
    exact ⟨l', rest', rfl, h⟩
  | cons u used =>
    obtain ⟨rfl, -⟩ := List.cons.inj hs
    exact ⟨k, _, rfl, .same _⟩

/-! ## Parsers -/

/-- A step that fails ends the loop. -/
theorem Progresses.repeatFrom_of_error {α : Type} {step : α → Parser (Option α)}
    (hstep : Progresses step) {a : α} {s t : List Located} {err : ParseError}
    (h : step a s = .error err t) : repeatFrom step a s = .error err t := by
  cases s with
  | nil =>
    rw [hstep.nil a] at h
    cases h
  | cons l rest => rw [repeatFrom, List.length_cons, iterate, bind_of_error h]

section

variable {α : Type}

/-- Whatever resembles the token behind those used up, and whatever follows, the parser fails. -/
def Refuses (p : Parser α) (used : List Located) (l : Located) : Prop :=
  ∀ l' rest', l.token.Resembles l'.token → ∃ err t, p (used ++ l' :: rest') = .error err t

/-- Whatever resembles the token behind those used up, and whatever follows, the parser gives this
result and leaves the rest. -/
def Gives (p : Parser α) (used : List Located) (l : Located) (a : α) : Prop :=
  ∀ l' rest', l.token.Resembles l'.token → p (used ++ l' :: rest') = .ok a (l' :: rest')

/-- On the token list `s`, the parser `p` gives a result or an error that the tokens up to the one
looked at last account for, and `p'` does the same by these tokens alone. -/
inductive TracksAt (nt : Nonterminal) (room : Nat) (before : List Token) (p p' : Parser α)
    (Q : List Token → α → Prop) (s : List Located) : Prop
  | ok {used : List Located} {l : Located} {rest : List Located} {a : α}
      (hs : s = used ++ l :: rest) (hused : Taken used) (hp : p s = .ok a (l :: rest))
      (hQ : Q (before ++ used.map (·.token)) a) (hgives : Gives p' used l a)
  | error {used : List Located} {l : Located} {rest t : List Located} {err : ParseError}
      (hs : s = used ++ l :: rest) (hused : Taken used) (hp : p s = .error err t)
      (hd : Diagnosis (fun t => Begins nt (before ++ used.map (·.token) ++ [t]))
        (Reaches nt (before ++ used.map (·.token)) .expression room) (Refuses p' used l) l err)

/-- The parser accounts for what it does on every token list of a text. -/
def Tracks (nt : Nonterminal) (room : Nat) (before : List Token) (p p' : Parser α)
    (Q : List Token → α → Prop) : Prop :=
  ∀ s, Complete s → TracksAt nt room before p p' Q s

variable {nt inner : Nonterminal} {room d : Nat} {before : List Token} {p p' q q' : Parser α}
  {Q R : List Token → α → Prop}

/-- A parser that takes some tokens and goes on as another one, by the look of the next token. -/
theorem TracksAt.append {used : List Located} {l : Located} {rest : List Located}
    (h : TracksAt nt room (before ++ used.map (·.token)) p p' Q (l :: rest)) (hused : Taken used)
    (hq : q (used ++ l :: rest) = p (l :: rest))
    (hq' : ∀ l' rest', l.token.Resembles l'.token → q' (used ++ l' :: rest') = p' (l' :: rest')) :
    TracksAt nt room before q q' Q (used ++ l :: rest) := by
  cases h with
  | @ok more k later a hs hmore hp hQ hgives =>
    have hs' : used ++ l :: rest = (used ++ more) ++ k :: later := by rw [hs, List.append_assoc]
    refine .ok hs' (taken_append hused hmore) (hq.trans hp) (by simpa using hQ) ?_
    -- The token looked at last may be the first of all, and then it need not be the same.
    intro k' later' hk
    obtain ⟨l', rest', heq, hl⟩ := exists_head_resembles later' hk hs
    rw [List.append_assoc, heq, hq' l' rest' hl, ← heq]
    exact hgives k' later' hk
  | @error more k later t err hs hmore hp hd =>
    have hs' : used ++ l :: rest = (used ++ more) ++ k :: later := by rw [hs, List.append_assoc]
    rw [List.append_assoc, ← List.map_append] at hd
    refine .error hs' (taken_append hused hmore) (hq.trans hp) (hd.imp_refused fun hrefuses => ?_)
    intro k' later' hk
    obtain ⟨l', rest', heq, hl⟩ := exists_head_resembles later' hk hs
    rw [List.append_assoc, heq, hq' l' rest' hl, ← heq]
    exact hrefuses k' later' hk

/-- A parser that goes on as another one, by the look of the first token. -/
theorem TracksAt.congr {l : Located} {rest : List Located} (hs : Complete (l :: rest))
    (h : Tracks nt room before p p' Q) (hq : q (l :: rest) = p (l :: rest))
    (hq' : ∀ l' rest', l.token.Resembles l'.token → q' (l' :: rest') = p' (l' :: rest')) :
    TracksAt nt room before q q' Q (l :: rest) :=
  @TracksAt.append _ _ _ _ _ _ _ _ _ [] l rest (by simpa using h _ hs) taken_nil hq hq'

/-- A parser that takes one token and goes on as another one. -/
theorem TracksAt.cons {l : Located} {rest : List Located} (hs : Complete (l :: rest))
    (h : Tracks nt room (before ++ [l.token]) p p' Q) (hl : l.token ≠ .eof)
    (hread : l.token.Readable) (hq : q (l :: rest) = p rest)
    (hq' : ∀ rest', q' (l :: rest') = p' rest') :
    TracksAt nt room before q q' Q (l :: rest) := by
  have hrest := hs.tail hl
  obtain ⟨k, later, rfl⟩ := hrest.exists_cons
  have htaken : Taken [l] := by
    intro u hu
    obtain rfl := List.mem_singleton.mp hu
    exact ⟨hl, hread⟩
  exact @TracksAt.append _ _ _ _ _ _ _ _ _ [l] k later (h _ hrest) htaken hq fun _ _ _ => hq' _

/-- A parser that gives a result by the look of the first token, and takes none. -/
theorem TracksAt.look {l : Located} {rest : List Located} {a : α}
    (hp : p (l :: rest) = .ok a (l :: rest)) (hQ : Q before a)
    (hp' : ∀ l' rest', l.token.Resembles l'.token → p' (l' :: rest') = .ok a (l' :: rest')) :
    TracksAt nt room before p p' Q (l :: rest) :=
  @TracksAt.ok _ _ _ _ _ _ _ _ [] l rest a rfl taken_nil hp (by simpa using hQ) hp'

/-- A parser that refuses the first token. -/
theorem TracksAt.refuse {l : Located} {rest t : List Located} {expected : Expected}
    (hp : p (l :: rest) = .error (.unexpectedToken expected l.token.kind l.position) t)
    (hexpected : ∀ u, expected.Admits u → Begins nt (before ++ [u])) (hp' : Refuses p' [] l) :
    TracksAt nt room before p p' Q (l :: rest) :=
  @TracksAt.error _ _ _ _ _ _ _ _ [] l rest t _ rfl taken_nil hp
    (.unexpected (by simpa using hexpected) hp')

namespace Tracks

theorem pure {a : α} (h : Q before a) :
    Tracks nt room before (Pure.pure a : Parser α) (Pure.pure a) Q := by
  intro s hs
  obtain ⟨l, rest, rfl⟩ := hs.exists_cons
  exact .look rfl h fun _ _ _ => rfl

/-- One parser after the other. -/
theorem bind {β : Type} {f f' : α → Parser β} {S : List Token → β → Prop}
    (h : Tracks nt room before p p' Q) (hf : ∀ a ts, Q ts a → Tracks nt room ts (f a) (f' a) S) :
    Tracks nt room before (p >>= f) (p' >>= f') S := by
  intro s hs
  cases h s hs with
  | ok heq hused hp hQ hgives =>
    subst heq
    exact (hf _ _ hQ _ (hs.of_append hused)).append hused (bind_of_ok hp)
      fun l' rest' hl => bind_of_ok (hgives l' rest' hl)
  | error heq hused hp hd =>
    refine .error heq hused (bind_of_error hp) (hd.imp_refused fun hrefuses l' rest' hl => ?_)
    obtain ⟨err, t, herr⟩ := hrefuses l' rest' hl
    exact ⟨err, t, bind_of_error herr⟩

theorem mono (h : Tracks nt room before p p' Q) (himp : ∀ ts a, Q ts a → R ts a) :
    Tracks nt room before p p' R := by
  intro s hs
  cases h s hs with
  | ok hs hused hp hQ hgives => exact .ok hs hused hp (himp _ _ hQ) hgives
  | error hs hused hp hd => exact .error hs hused hp hd

/-- A parser of a part, run where a phrase has room for that part. -/
theorem enter {ts : List Token} {k : Nat} (h : Tracks inner room [] p p' Q)
    (he : Enters nt ts inner d) (hk : d + room = k) :
    Tracks nt k ts p p' (fun us a => ∃ vs, us = ts ++ vs ∧ Q vs a) := by
  intro s hs
  subst hk
  cases h s hs with
  | ok hs hused hp hQ hgives => exact .ok hs hused hp ⟨_, rfl, hQ⟩ hgives
  | error hs hused hp hd =>
    refine .error hs hused hp (hd.imp (fun t ht => ?_) (.enter he) id)
    simpa using he.begins ht

/-- What a step of a loop gives: a result for more tokens, or nothing and the tokens as before. -/
def Step (Q : List Token → α → Prop) (ts us : List Token) : Option α → Prop
  | some a => Q us a
  | none => us = ts

/-- A loop, by induction on the number of tokens that are left. -/
theorem repeatFrom {step step' : α → Parser (Option α)} (hlt : Progresses step)
    (hlt' : Progresses step')
    (hstep : ∀ a ts, Q ts a → Tracks nt room ts (step a) (step' a) (Step Q ts)) {a : α}
    {ts : List Token} (h : Q ts a) :
    Tracks nt room ts (Parser.repeatFrom step a) (Parser.repeatFrom step' a) Q := by
  intro s hs
  induction hn : s.length using Nat.strongRecOn generalizing a ts s with
  | ind n ih =>
  cases hstep a ts h s hs with
  | error heq hused hp hd =>
    refine .error heq hused (hlt.repeatFrom_of_error hp) (hd.imp_refused ?_)
    intro hrefuses l' rest' hl
    obtain ⟨err, t, herr⟩ := hrefuses l' rest' hl
    exact ⟨err, t, hlt'.repeatFrom_of_error herr⟩
  | @ok used l rest o heq hused hp hQ hgives =>
    subst heq
    cases o with
    | none =>
      obtain rfl : used = [] := by simpa [Step] using hQ
      exact .ok rfl taken_nil (repeatFrom_of_none hp) (by simpa using h)
        fun l' rest' hl => repeatFrom_of_none (hgives l' rest' hl)
    | some b =>
      have hshorter : (l :: rest).length < n := hn ▸ hlt.length_lt hp
      exact (ih _ hshorter hQ _ (hs.of_append hused) rfl).append hused (hlt.repeatFrom_of_some hp)
        fun l' rest' hl => hlt'.repeatFrom_of_some (hgives l' rest' hl)

end Tracks

/-- A parser that takes one token and gives a result. -/
theorem TracksAt.take {l : Located} {rest : List Located} {a : α} (hs : Complete (l :: rest))
    (hl : l.token ≠ .eof) (hread : l.token.Readable) (hQ : Q (before ++ [l.token]) a)
    (hp : p (l :: rest) = .ok a rest) (hp' : ∀ rest', p' (l :: rest') = .ok a rest') :
    TracksAt nt room before p p' Q (l :: rest) :=
  .cons hs (.pure hQ) hl hread hp hp'

end

end Parser

end BigStep
