import BigStep.Proofs.Expr.Productions

/-!
# Beginnings of phrases

What can be said of tokens that need not be a whole phrase: whether they can be completed to one,
and where in a phrase they lead.

* `Begins nt ts`: some phrase of the nonterminal begins with the tokens.
* `Viable ts`: some expression, with the end behind it, begins with the tokens.
* `Enters nt ts inner d`: behind the tokens, a production of `nt` has room for a phrase of `inner`,
  which is `d` levels further in. There is one case for each place in the productions.
* `Reaches nt ts inner k`: the same through any number of productions. An expression position
  inside `k` levels is one that `Reaches .expression ts .expression k`.
* `Enters.begins`: tokens that lead into a phrase can be completed once that phrase can.
* `Derives.passes`: a phrase with `n` levels has an expression position inside each number of levels
  up to `n`.
-/

namespace BigStep

/-! ## The chain of nonterminals -/

/-- The nonterminal of the operands. A primary has none. -/
def Nonterminal.operand : Nonterminal → Nonterminal
  | expression => comparison
  | comparison => additive
  | additive => multiplicative
  | multiplicative => application
  | application => primary
  | primary => primary

/-- The nonterminal of the operations of an operator. -/
def Operator.nonterminal : Operator → Nonterminal
  | less => .comparison
  | add => .additive
  | sub => .additive
  | mul => .multiplicative

theorem Operator.layer_nonterminal (op : Operator) : op.nonterminal.layer = op.precedence := by
  cases op <;> rfl

theorem Nonterminal.layer_operand {nt : Nonterminal} (h : nt ≠ .primary) :
    nt.operand.layer = nt.layer + 1 := by
  cases nt <;> first | rfl | exact absurd rfl h

namespace Derives

variable {m n : Nat} {ts ls rs : List Token} {e l r : Expr}

/-- An operand is a phrase by itself. -/
theorem ofOperand {nt : Nonterminal} (hnt : nt ≠ .primary) (h : Derives nt.operand n ts e) :
    Derives nt n ts e := by
  cases nt with
  | expression => exact .ofComparison h
  | comparison => exact .ofAdditive h
  | additive => exact .ofMultiplicative h
  | multiplicative => exact .ofApplication h
  | application => exact .ofPrimary h
  | primary => exact h

/-- A primary is a phrase of every nonterminal. -/
theorem climb (h : Derives .primary n ts e) (nt : Nonterminal) : Derives nt n ts e := by
  have happ : Derives .application n ts e := .ofPrimary h
  have hadd : Derives .additive n ts e := .ofMultiplicative (.ofApplication happ)
  cases nt with
  | expression => exact .ofComparison (.ofAdditive hadd)
  | comparison => exact .ofAdditive hadd
  | additive => exact hadd
  | multiplicative => exact .ofApplication happ
  | application => exact happ
  | primary => exact h

theorem binary {op : Operator} (hl : Derives op.nonterminal m ls l)
    (hr : Derives op.nonterminal.operand n rs r) :
    Derives op.nonterminal (max m n) (ls ++ op.token :: rs) (.binary op l r) := by
  cases op with
  | less => exact .less hl hr
  | add => exact .plus hl hr
  | sub => exact .minus hl hr
  | mul => exact .times hl hr

end Derives

/-! ## Tokens that can be completed -/

/-- Some phrase of the nonterminal begins with the tokens. -/
def Begins (nt : Nonterminal) (ts : List Token) : Prop :=
  ∃ more n e, Derives nt n (ts ++ more) e

/-- Some expression, with the end behind it, begins with the tokens. Numbers may have any value, and
expressions any number of levels around them. -/
def Viable (ts : List Token) : Prop :=
  ∃ more us n e, Derives .expression n us e ∧ ts ++ more = us ++ [.eof]

theorem Begins.viable {ts : List Token} (h : Begins .expression ts) : Viable ts := by
  obtain ⟨more, n, e, h⟩ := h
  exact ⟨more ++ [.eof], _, n, e, h, by simp⟩

theorem Derives.begins {nt : Nonterminal} {n : Nat} {ts : List Token} {e : Expr}
    (h : Derives nt n ts e) : Begins nt ts :=
  ⟨[], n, e, by rwa [List.append_nil]⟩

/-- Fewer tokens can be completed too. -/
theorem Begins.of_append {nt : Nonterminal} {ts us : List Token} (h : Begins nt (ts ++ us)) :
    Begins nt ts := by
  obtain ⟨more, n, e, h⟩ := h
  exact ⟨us ++ more, n, e, by rwa [← List.append_assoc]⟩

theorem Viable.of_append {ts us : List Token} (h : Viable (ts ++ us)) : Viable ts := by
  obtain ⟨more, vs, n, e, h, heq⟩ := h
  exact ⟨us ++ more, vs, n, e, h, by rwa [← List.append_assoc]⟩

/-- A token that starts an atom starts phrases of every nonterminal. -/
theorem begins_of_startsAtom {t : Token} (h : t.startsAtom = true) (nt : Nonterminal) :
    Begins nt [t] := by
  cases t with
  | number digits => exact (Derives.number.climb nt).begins
  | bool b => exact (Derives.bool.climb nt).begins
  | ident name => exact (Derives.var.climb nt).begins
  | openParen =>
    have hparen := (Derives.paren (@Derives.bool true |>.climb .expression)).climb nt
    exact @Begins.of_append nt [.openParen] [.bool true, .closeParen] hparen.begins
  | _ => cases h

theorem begins_nil (nt : Nonterminal) : Begins nt [] :=
  @Begins.of_append nt [] [.bool true] (Derives.bool.climb nt).begins

/-! ## Places in the productions -/

/-- Behind the tokens, a production of the first nonterminal has room for a phrase of the second,
which is that number of levels further in. -/
inductive Enters : Nonterminal → List Token → Nonterminal → Nat → Prop
  | condition : Enters .expression [.ifKw] .expression 1
  | thenBranch {n : Nat} {cs : List Token} {c : Expr} (hc : Derives .expression n cs c) :
      Enters .expression (.ifKw :: cs ++ [.thenKw]) .expression 1
  | elseBranch {m n : Nat} {cs ts : List Token} {c t : Expr} (hc : Derives .expression m cs c)
      (ht : Derives .expression n ts t) :
      Enters .expression (.ifKw :: cs ++ .thenKw :: ts ++ [.elseKw]) .expression 1
  | recValue {name param : String} :
      Enters .expression [.letKw, .recKw, .ident name, .equal, .funKw, .ident param, .arrow]
        .expression 1
  | recBody {n : Nat} {name param : String} {fs : List Token} {f : Expr}
      (hf : Derives .expression n fs f) :
      Enters .expression
        (.letKw :: .recKw :: .ident name :: .equal :: .funKw :: .ident param :: .arrow :: fs ++
          [.inKw])
        .expression 1
  | letValue {name : String} : Enters .expression [.letKw, .ident name, .equal] .expression 1
  | letBody {n : Nat} {name : String} {vs : List Token} {v : Expr}
      (hv : Derives .expression n vs v) :
      Enters .expression (.letKw :: .ident name :: .equal :: vs ++ [.inKw]) .expression 1
  | funcBody {param : String} : Enters .expression [.funKw, .ident param, .arrow] .expression 1
  | paren : Enters .primary [.openParen] .expression 1
  | argument {n : Nat} {fs : List Token} {f : Expr} (hf : Derives .application n fs f) :
      Enters .application fs .primary 0
  | right {op : Operator} {n : Nat} {ls : List Token} {l : Expr}
      (hl : Derives op.nonterminal n ls l) :
      Enters op.nonterminal (ls ++ [op.token]) op.nonterminal.operand 0
  | operand {nt : Nonterminal} (h : nt ≠ .primary) : Enters nt [] nt.operand 0

/-- Behind the tokens, a phrase of the first nonterminal has room for one of the second, which is
that number of levels further in. -/
inductive Reaches : Nonterminal → List Token → Nonterminal → Nat → Prop
  | here {nt : Nonterminal} : Reaches nt [] nt 0
  | enter {nt mid inner : Nonterminal} {ts us : List Token} {d k : Nat} (h : Enters nt ts mid d)
      (h' : Reaches mid us inner k) : Reaches nt (ts ++ us) inner (d + k)

/-- A phrase put where it has room is part of a larger phrase. -/
theorem Enters.completes {nt inner : Nonterminal} {ts us : List Token} {d n : Nat} {e : Expr}
    (h : Enters nt ts inner d) (he : Derives inner n us e) : Begins nt (ts ++ us) := by
  have hatom : Derives .expression 0 [.bool true] (.bool true) := Derives.bool.climb _
  cases h with
  | condition => exact ⟨_, _, _, by simpa using he.cond hatom hatom⟩
  | thenBranch hc => exact ⟨_, _, _, by simpa using hc.cond he hatom⟩
  | elseBranch hc ht => exact (Derives.begins (by simpa using hc.cond ht he))
  | recValue => exact ⟨_, _, _, by simpa using he.letRec hatom⟩
  | recBody hf => exact (Derives.begins (by simpa using hf.letRec he))
  | letValue => exact ⟨_, _, _, by simpa using he.letIn hatom⟩
  | letBody hv => exact (Derives.begins (by simpa using hv.letIn he))
  | funcBody => exact he.func.begins
  | paren => exact ⟨[.closeParen], _, _, he.paren⟩
  | argument hf => exact (hf.app he).begins
  | right hl => exact (Derives.begins (by simpa using hl.binary he))
  | operand hne => exact (he.ofOperand hne).begins

/-- Tokens can be completed if they lead to a phrase and what stands behind can be completed to
one. -/
theorem Enters.begins {nt inner : Nonterminal} {ts us : List Token} {d : Nat}
    (h : Enters nt ts inner d) (hu : Begins inner us) : Begins nt (ts ++ us) := by
  obtain ⟨more, n, e, he⟩ := hu
  have hall := h.completes he
  rw [← List.append_assoc] at hall
  exact hall.of_append

theorem Enters.begins_here {nt inner : Nonterminal} {ts : List Token} {d : Nat}
    (h : Enters nt ts inner d) : Begins nt ts :=
  (h.begins (begins_nil inner)).of_append

theorem Reaches.begins {nt inner : Nonterminal} {ts : List Token} {k : Nat}
    (h : Reaches nt ts inner k) : Begins nt ts := by
  induction h with
  | here => exact begins_nil _
  | enter h _ ih => exact h.begins ih

/-! ## Levels and positions -/

/-- Some of the tokens, from the first on, lead to an expression position inside `k` levels. -/
def Passes (nt : Nonterminal) (ts : List Token) (k : Nat) : Prop :=
  ∃ front back, ts = front ++ back ∧ Reaches nt front .expression k

theorem Passes.append {nt : Nonterminal} {ts : List Token} {k : Nat} (h : Passes nt ts k)
    (us : List Token) : Passes nt (ts ++ us) k := by
  obtain ⟨front, back, rfl, h⟩ := h
  exact ⟨front, back ++ us, by simp, h⟩

theorem Enters.passes {nt inner : Nonterminal} {ts us : List Token} {d k : Nat}
    (h : Enters nt ts inner d) (hu : Passes inner us k) : Passes nt (ts ++ us) (d + k) := by
  obtain ⟨front, back, rfl, hu⟩ := hu
  exact ⟨ts ++ front, back, by simp, .enter h hu⟩

/-- One level further in, the first position is the one that is entered. -/
theorem Enters.passes_level {nt : Nonterminal} {ts us : List Token} {n : Nat}
    (h : Enters nt ts .expression 1) (hu : ∀ {k}, k < n → Passes .expression us (k + 1)) {k : Nat}
    (hk : k ≤ n) : Passes nt (ts ++ us) (k + 1) := by
  have hinner : Passes .expression us k := by
    cases k with
    | zero => exact ⟨[], us, rfl, .here⟩
    | succ k => exact hu hk
  rw [Nat.add_comm k 1]
  exact h.passes hinner

/-- Of two sides of a phrase, either may be the deeper one. -/
theorem Enters.passes_sides {nt inner : Nonterminal} {ts us ls : List Token} {m n : Nat}
    (h : Enters nt ts inner 0) (hleft : ls <+: ts ++ us)
    (hl : ∀ {k}, k < m → Passes nt ls (k + 1)) (hr : ∀ {k}, k < n → Passes inner us (k + 1))
    {k : Nat} (hk : k < max m n) : Passes nt (ts ++ us) (k + 1) := by
  rcases (by omega : k < m ∨ k < n) with hk | hk
  · obtain ⟨more, heq⟩ := hleft
    exact heq ▸ (hl hk).append more
  · simpa using h.passes (hr hk)

theorem passes_binary (op : Operator) {m n : Nat} {ls rs : List Token} {l : Expr}
    (h : Derives op.nonterminal m ls l) (hl : ∀ {k}, k < m → Passes op.nonterminal ls (k + 1))
    (hr : ∀ {k}, k < n → Passes op.nonterminal.operand rs (k + 1)) {k : Nat} (hk : k < max m n) :
    Passes op.nonterminal (ls ++ op.token :: rs) (k + 1) := by
  simpa using (Enters.right h).passes_sides (by simp) hl hr hk

/-- A phrase has an expression position inside each number of levels, up to its own. -/
theorem Derives.passes {nt : Nonterminal} {n : Nat} {ts : List Token} {e : Expr}
    (h : Derives nt n ts e) {k : Nat} (hk : k < n) : Passes nt ts (k + 1) := by
  induction h generalizing k with
  | number | bool | var => exact absurd hk (Nat.not_lt_zero k)
  | @cond l m n cs ts es c t e hc ht he ihc iht ihe =>
    rcases (by omega : k ≤ l ∨ k ≤ m ∨ k ≤ n) with hk | hk | hk
    · simpa using (Enters.condition.passes_level ihc hk).append (.thenKw :: ts ++ .elseKw :: es)
    · simpa using ((Enters.thenBranch hc).passes_level iht hk).append (.elseKw :: es)
    · simpa using (Enters.elseBranch hc ht).passes_level ihe hk
  | @letRec m n name param fs bs f b hf hb ihf ihb =>
    rcases (by omega : k ≤ m ∨ k ≤ n) with hk | hk
    · simpa using (Enters.recValue.passes_level ihf hk).append (.inKw :: bs)
    · simpa using (Enters.recBody hf).passes_level ihb hk
  | @letIn m n name vs bs v b hv hb ihv ihb =>
    rcases (by omega : k ≤ m ∨ k ≤ n) with hk | hk
    · simpa using (Enters.letValue.passes_level ihv hk).append (.inKw :: bs)
    · simpa using (Enters.letBody hv).passes_level ihb hk
  | func _ ih => exact Enters.funcBody.passes_level ih (Nat.le_of_lt_succ hk)
  | paren _ ih => exact (Enters.paren.passes_level ih (Nat.le_of_lt_succ hk)).append [.closeParen]
  | ofComparison _ ih => simpa using (@Enters.operand .expression nofun).passes (ih hk)
  | ofAdditive _ ih => simpa using (@Enters.operand .comparison nofun).passes (ih hk)
  | ofMultiplicative _ ih => simpa using (@Enters.operand .additive nofun).passes (ih hk)
  | ofApplication _ ih => simpa using (@Enters.operand .multiplicative nofun).passes (ih hk)
  | ofPrimary _ ih => simpa using (@Enters.operand .application nofun).passes (ih hk)
  | app hf _ ihf iha => exact (Enters.argument hf).passes_sides (List.prefix_append _ _) ihf iha hk
  | less hl _ ihl ihr => exact passes_binary .less hl ihl ihr hk
  | plus hl _ ihl ihr => exact passes_binary .add hl ihl ihr hk
  | minus hl _ ihl ihr => exact passes_binary .sub hl ihl ihr hk
  | times hl _ ihl ihr => exact passes_binary .mul hl ihl ihr hk

end BigStep
