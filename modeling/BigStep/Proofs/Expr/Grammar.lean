import BigStep.Expr.Parser

/-!
# Grammar

`Phrase levels layer tokens e` says that the tokens are a phrase for `e` in a layer of the grammar,
in which no expression stands inside more than `levels` parentheses and keyword constructs.

| layer | phrases |
|---|---|
| 0 | expressions: the keyword constructs, and all phrases of layer 1 |
| 1, 2, 3 | operations whose operator has that precedence, and all phrases of the layer above |
| 4 | applications, and all primaries |
| 5 | primaries: literals, variables, expressions in parentheses |

Layers are numbered as precedences are, so an operation of precedence `k` has a left operand in
layer `k` and a right one in layer `k + 1`: repetitions fold to the left.

* `CodePhrase`: the same for the code of functions.
* `Token.continues`: the tokens that go on with a phrase of a layer, if they stand behind one.
-/

namespace BigStep

/-- The token of an operator. -/
def Operator.token : Operator → Token
  | add => .plus
  | sub => .minus
  | mul => .asterisk
  | less => .less

/-- The tokens are a phrase for the expression in a layer of the grammar, with at most `levels`
parentheses and keyword constructs around any expression in it. -/
inductive Phrase : (levels layer : Nat) → List Token → Expr → Prop
  | number {levels : Nat} {digits : String} {n : Int}
      (h : Integer.ofText? digits.toList = some n) : Phrase levels 5 [.number digits] (.int n)
  | bool {levels : Nat} {b : Bool} : Phrase levels 5 [.bool b] (.bool b)
  | var {levels : Nat} {name : String} : Phrase levels 5 [.ident name] (.var name)
  | paren {levels : Nat} {ts : List Token} {e : Expr} (h : Phrase levels 0 ts e) :
      Phrase (levels + 1) 5 (.openParen :: ts ++ [.closeParen]) e
  | app {levels : Nat} {fs as : List Token} {f a : Expr} (hf : Phrase levels 4 fs f)
      (ha : Phrase levels 5 as a) : Phrase levels 4 (fs ++ as) (.app f a)
  | binary {levels : Nat} {op : Operator} {ls rs : List Token} {l r : Expr}
      (hl : Phrase levels op.precedence ls l) (hr : Phrase levels (op.precedence + 1) rs r) :
      Phrase levels op.precedence (ls ++ op.token :: rs) (.binary op l r)
  | cond {levels : Nat} {cs ts es : List Token} {c t e : Expr} (hc : Phrase levels 0 cs c)
      (ht : Phrase levels 0 ts t) (he : Phrase levels 0 es e) :
      Phrase (levels + 1) 0 (.ifKw :: cs ++ .thenKw :: ts ++ .elseKw :: es) (.cond c t e)
  | letIn {levels : Nat} {name : String} {vs bs : List Token} {v b : Expr}
      (hv : Phrase levels 0 vs v) (hb : Phrase levels 0 bs b) :
      Phrase (levels + 1) 0 (.letKw :: .ident name :: .equal :: vs ++ .inKw :: bs)
        (.letIn name v b)
  | letRec {levels : Nat} {name param : String} {fs bs : List Token} {f b : Expr}
      (hf : Phrase levels 0 fs f) (hb : Phrase levels 0 bs b) :
      Phrase (levels + 1) 0
        (.letKw :: .recKw :: .ident name :: .equal :: .funKw :: .ident param :: .arrow :: fs ++
          .inKw :: bs)
        (.letRec name param f b)
  | func {levels : Nat} {param : String} {bs : List Token} {b : Expr}
      (hb : Phrase levels 0 bs b) :
      Phrase (levels + 1) 0 (.funKw :: .ident param :: .arrow :: bs) (.func param b)
  | above {levels layer : Nat} {ts : List Token} {e : Expr} (hk : layer < 5)
      (h : Phrase levels (layer + 1) ts e) : Phrase levels layer ts e

/-- The tokens are a phrase for the code of a function. Its body stands inside no level. -/
inductive CodePhrase : List Token → Code → Prop
  | func {param : String} {bs : List Token} {b : Expr} (hb : Phrase Parser.maxNesting 0 bs b) :
      CodePhrase (.funKw :: .ident param :: .arrow :: bs) ⟨none, param, b⟩
  | recFunc {name param : String} {bs : List Token} {b : Expr}
      (hb : Phrase Parser.maxNesting 0 bs b) :
      CodePhrase (.recKw :: .ident name :: .equal :: .funKw :: .ident param :: .arrow :: bs)
        ⟨some name, param, b⟩

namespace Token

/-- The token goes on with a phrase of the layer that stands before it: it starts one more
argument, or is an operator of that layer or one above. -/
def continues (layer : Nat) (t : Token) : Prop :=
  (layer ≤ 4 ∧ t.startsAtom = true) ∨ ∃ op, t.operator? = some op ∧ layer ≤ op.precedence

theorem continues_mono {k m : Nat} (h : k ≤ m) {t : Token} (ht : t.continues m) :
    t.continues k := by
  rcases ht with ⟨hm, hs⟩ | ⟨op, hop, hm⟩
  · exact .inl ⟨by omega, hs⟩
  · exact .inr ⟨op, hop, by omega⟩

theorem operator?_token (op : Operator) : op.token.operator? = some op := by
  cases op <;> rfl

theorem eq_token_of_operator? {t : Token} {op : Operator} (h : t.operator? = some op) :
    t = op.token := by
  cases t <;> cases h <;> rfl

/-- An operator goes on with no phrase above its own layer. -/
theorem not_continues_token {op : Operator} {k : Nat} (h : op.precedence < k) :
    ¬ op.token.continues k := by
  rintro (⟨-, hs⟩ | ⟨op', hop, hk⟩)
  · cases op <;> cases hs
  · rw [operator?_token] at hop
    cases hop
    omega

/-- No token goes on with a primary. -/
theorem not_continues_of_five_le {k : Nat} (h : 5 ≤ k) (t : Token) : ¬ t.continues k := by
  rintro (⟨hk, -⟩ | ⟨op, -, hk⟩)
  · omega
  · cases op <;> simp only [Operator.precedence] at hk <;> omega

end Token

/-- A phrase is not empty, and one above layer 0 begins with a token that starts an atom. -/
theorem Phrase.first {levels layer : Nat} {ts : List Token} {e : Expr}
    (h : Phrase levels layer ts e) :
    ∃ t ts', ts = t :: ts' ∧ (0 < layer → t.startsAtom = true) := by
  induction h with
  | number | bool | var => exact ⟨_, _, rfl, fun _ => rfl⟩
  | paren => exact ⟨_, _, rfl, fun _ => rfl⟩
  | cond | letIn | letRec | func => exact ⟨_, _, rfl, fun h => absurd h (by omega)⟩
  | app _ _ ihf _ =>
    obtain ⟨t, ts', rfl, ht⟩ := ihf
    exact ⟨t, _, rfl, fun _ => ht (by omega)⟩
  | binary _ _ ihl _ =>
    obtain ⟨t, ts', rfl, ht⟩ := ihl
    exact ⟨t, _, rfl, ht⟩
  | above _ _ ih =>
    obtain ⟨t, ts', rfl, ht⟩ := ih
    exact ⟨t, ts', rfl, fun _ => ht (by omega)⟩

end BigStep
