import BigStep.Proofs.Expr.Grammar
import BigStep.Proofs.Token.Spelling

/-!
# Well-formed expressions

The expressions that can be written down, in their canonical text.

* `Expr.Spellable`: names are identifiers, and literals are integers from zero up that have a
  signed 64-bit form.
* `Expr.nesting`: the greatest number of parentheses and keyword constructs that stand around a
  sub-expression in the canonical text.
* `Expr.WellFormed`: spellable, and nested no deeper than the parser allows.
* `Expr.tokens`: the tokens of the canonical text. They are a phrase (`phrase_tokens`), and no
  phrase of the expression is nested less deeply (`Phrase.nestingAt_le`).
-/

namespace BigStep

namespace Expr

/-- Every name is an identifier, and every literal is from zero up and in range. -/
def Spellable : Expr → Prop
  | int n => 0 ≤ n ∧ n ≤ Integer.greatest
  | bool _ => True
  | var name => IsIdentifier name
  | binary _ left right => left.Spellable ∧ right.Spellable
  | cond condition thenBranch elseBranch =>
    condition.Spellable ∧ thenBranch.Spellable ∧ elseBranch.Spellable
  | letIn name value body => IsIdentifier name ∧ value.Spellable ∧ body.Spellable
  | letRec name param functionBody body =>
    IsIdentifier name ∧ IsIdentifier param ∧ functionBody.Spellable ∧ body.Spellable
  | func param body => IsIdentifier param ∧ body.Spellable
  | app function argument => function.Spellable ∧ argument.Spellable

/-- The levels around a text that has `n` of its own, one more if it stands in parentheses. -/
def parenthesizeLevels (needed : Bool) (n : Nat) : Nat := if needed then n + 1 else n

/-- The greatest number of parentheses and keyword constructs around a sub-expression in the
canonical text. A recursive binding counts once. -/
def nesting : Expr → Nat
  | int _ => 0
  | bool _ => 0
  | var _ => 0
  | binary op left right =>
    max (parenthesizeLevels (left.precedence < op.precedence) left.nesting)
      (parenthesizeLevels (right.precedence ≤ op.precedence) right.nesting)
  | cond condition thenBranch elseBranch =>
    max condition.nesting (max thenBranch.nesting elseBranch.nesting) + 1
  | letIn _ value body => max value.nesting body.nesting + 1
  | letRec _ _ functionBody body => max functionBody.nesting body.nesting + 1
  | func _ body => body.nesting + 1
  | app function argument =>
    max (parenthesizeLevels (function.precedence < appPrecedence) function.nesting)
      (parenthesizeLevels (argument.precedence ≤ appPrecedence) argument.nesting)

/-- Every name and literal can be written, and in the canonical text no sub-expression stands
inside more than 200 parentheses and keyword constructs. -/
structure WellFormed (e : Expr) : Prop where
  spellable : e.Spellable
  nesting_le : e.nesting ≤ 200

/-- The tokens, in parentheses if `needed`. -/
def parenthesizeTokens (needed : Bool) (ts : List Token) : List Token :=
  if needed then .openParen :: ts ++ [.closeParen] else ts

/-- The tokens of the canonical text. -/
def tokens : Expr → List Token
  | int n => [.number (Text.Decimal.write n)]
  | bool b => [.bool b]
  | var name => [.ident name]
  | binary op left right =>
    parenthesizeTokens (left.precedence < op.precedence) left.tokens ++ op.token ::
      parenthesizeTokens (right.precedence ≤ op.precedence) right.tokens
  | cond condition thenBranch elseBranch =>
    .ifKw :: condition.tokens ++ .thenKw :: thenBranch.tokens ++ .elseKw :: elseBranch.tokens
  | letIn name value body =>
    .letKw :: .ident name :: .equal :: value.tokens ++ .inKw :: body.tokens
  | letRec name param functionBody body =>
    .letKw :: .recKw :: .ident name :: .equal :: .funKw :: .ident param :: .arrow ::
      functionBody.tokens ++ .inKw :: body.tokens
  | func param body => .funKw :: .ident param :: .arrow :: body.tokens
  | app function argument =>
    parenthesizeTokens (function.precedence < appPrecedence) function.tokens ++
      parenthesizeTokens (argument.precedence ≤ appPrecedence) argument.tokens

/-! ## Operands

In layer `k` an operand stands in parentheses if it binds less tightly than `k`. The right operand
of an operation has the layer above, so there the parentheses are needed at equal precedence too. -/

/-- The text of the expression as an operand in layer `k`. -/
def textAt (k : Nat) (e : Expr) : String := parenthesize (e.precedence < k) e.text

/-- The tokens of the expression as an operand in layer `k`. -/
def tokensAt (k : Nat) (e : Expr) : List Token := parenthesizeTokens (e.precedence < k) e.tokens

/-- The levels that the expression needs as an operand in layer `k`. -/
def nestingAt (k : Nat) (e : Expr) : Nat := parenthesizeLevels (e.precedence < k) e.nesting

theorem decide_precedence_le (k : Nat) (e : Expr) :
    decide (e.precedence ≤ k) = decide (e.precedence < k + 1) :=
  decide_eq_decide.mpr Nat.lt_add_one_iff.symm

theorem text_binary (op : Operator) (l r : Expr) :
    (binary op l r).text =
      l.textAt op.precedence ++ " " ++ op.symbol ++ " " ++ r.textAt (op.precedence + 1) := by
  rw [text, decide_precedence_le]
  rfl

theorem text_app (f a : Expr) : (app f a).text = f.textAt 4 ++ " " ++ a.textAt 5 := by
  rw [text, decide_precedence_le]
  rfl

theorem tokens_binary (op : Operator) (l r : Expr) :
    (binary op l r).tokens =
      l.tokensAt op.precedence ++ op.token :: r.tokensAt (op.precedence + 1) := by
  rw [tokens, decide_precedence_le]
  rfl

theorem tokens_app (f a : Expr) : (app f a).tokens = f.tokensAt 4 ++ a.tokensAt 5 := by
  rw [tokens, decide_precedence_le]
  rfl

theorem nesting_binary (op : Operator) (l r : Expr) :
    (binary op l r).nesting =
      max (l.nestingAt op.precedence) (r.nestingAt (op.precedence + 1)) := by
  rw [nesting, decide_precedence_le]
  rfl

theorem nesting_app (f a : Expr) : (app f a).nesting = max (f.nestingAt 4) (a.nestingAt 5) := by
  rw [nesting, decide_precedence_le]
  rfl

theorem nestingAt_le_iff {k n : Nat} {e : Expr} :
    e.nestingAt k ≤ n ↔ e.nesting ≤ n ∧ (e.precedence < k → e.nesting < n) := by
  by_cases h : e.precedence < k
  · simp only [nestingAt, parenthesizeLevels, h, decide_true, if_true, forall_const]
    omega
  · simp [nestingAt, parenthesizeLevels, h]

theorem precedence_le_five (e : Expr) : e.precedence ≤ 5 := by
  cases e with
  | binary op l r => cases op <;> simp [precedence, Operator.precedence]
  | _ => simp [precedence, appPrecedence]

end Expr

/-- A phrase is one of every layer below its own. -/
theorem Phrase.below_layer {levels j k : Nat} {ts : List Token} {e : Expr}
    (h : Phrase levels k ts e) (hj : j ≤ k) (hk : k ≤ 5) : Phrase levels j ts e := by
  induction k with
  | zero => exact Nat.le_zero.mp hj ▸ h
  | succ k ih =>
    rcases Nat.lt_or_eq_of_le hj with hlt | rfl
    · exact ih (.above (by omega) h) (by omega) (by omega)
    · exact h

theorem Phrase.expression {levels : Nat} {ts : List Token} {e : Expr}
    (h : Phrase levels e.precedence ts e) : Phrase levels 0 ts e :=
  h.below_layer (Nat.zero_le _) e.precedence_le_five

namespace Expr

/-- The tokens of an operand in layer `k` are a phrase of that layer. -/
theorem phrase_tokensAt {e : Expr} (he : ∀ n, e.nesting ≤ n → Phrase n e.precedence e.tokens e)
    {k n : Nat} (hk : k ≤ 5) (hn : e.nestingAt k ≤ n) : Phrase n k (e.tokensAt k) e := by
  have h₅ := e.precedence_le_five
  rw [nestingAt_le_iff] at hn
  by_cases h : e.precedence < k
  · have hlt := hn.2 h
    obtain ⟨m, rfl⟩ : ∃ m, n = m + 1 := ⟨n - 1, by omega⟩
    have hinner : Phrase m 0 e.tokens e := (he m (by omega)).expression
    simpa [tokensAt, parenthesizeTokens, h] using hinner.paren.below_layer hk (by omega)
  · simpa [tokensAt, parenthesizeTokens, h] using (he n hn.1).below_layer (by omega) h₅

/-- The tokens of the canonical text are a phrase in the layer of the outermost construct. -/
theorem phrase_tokens {e : Expr} (h : e.Spellable) {n : Nat} (hn : e.nesting ≤ n) :
    Phrase n e.precedence e.tokens e := by
  induction e generalizing n with
  | int i =>
    refine .number (Integer.ofText?_write ⟨?_, h.2⟩)
    exact Int.le_trans (by decide) h.1
  | bool b => exact .bool
  | var name => exact .var
  | binary op l r ihl ihr =>
    have hop : op.precedence < 4 := by cases op <;> decide
    rw [nesting_binary, Nat.max_le] at hn
    rw [tokens_binary]
    exact .binary (phrase_tokensAt (fun _ => ihl h.1) (by omega) hn.1)
      (phrase_tokensAt (fun _ => ihr h.2) (by omega) hn.2)
  | app f a ihf iha =>
    rw [nesting_app, Nat.max_le] at hn
    rw [tokens_app]
    exact .app (phrase_tokensAt (fun _ => ihf h.1) (by decide) hn.1)
      (phrase_tokensAt (fun _ => iha h.2) (by decide) hn.2)
  | cond c t e ihc iht ihe =>
    obtain ⟨m, rfl⟩ : ∃ m, n = m + 1 := ⟨n - 1, by simp only [nesting] at hn; omega⟩
    simp only [nesting, Nat.add_le_add_iff_right, Nat.max_le] at hn
    exact .cond (ihc h.1 hn.1).expression (iht h.2.1 hn.2.1).expression
      (ihe h.2.2 hn.2.2).expression
  | letIn x v b ihv ihb =>
    obtain ⟨m, rfl⟩ : ∃ m, n = m + 1 := ⟨n - 1, by simp only [nesting] at hn; omega⟩
    simp only [nesting, Nat.add_le_add_iff_right, Nat.max_le] at hn
    exact .letIn (ihv h.2.1 hn.1).expression (ihb h.2.2 hn.2).expression
  | letRec f x e b ihe ihb =>
    obtain ⟨m, rfl⟩ : ∃ m, n = m + 1 := ⟨n - 1, by simp only [nesting] at hn; omega⟩
    simp only [nesting, Nat.add_le_add_iff_right, Nat.max_le] at hn
    exact .letRec (ihe h.2.2.1 hn.1).expression (ihb h.2.2.2 hn.2).expression
  | func x b ihb =>
    obtain ⟨m, rfl⟩ : ∃ m, n = m + 1 := ⟨n - 1, by simp only [nesting] at hn; omega⟩
    simp only [nesting, Nat.add_le_add_iff_right] at hn
    exact .func (ihb h.2 hn).expression

end Expr

/-- However an expression is written, its canonical text needs no more levels. -/
theorem Phrase.nestingAt_le {levels layer : Nat} {ts : List Token} {e : Expr}
    (h : Phrase levels layer ts e) : e.nestingAt layer ≤ levels := by
  induction h with
  | number | bool | var => simp [Expr.nestingAt_le_iff, Expr.precedence, Expr.nesting]
  | paren _ ih =>
    obtain ⟨hn, -⟩ := Expr.nestingAt_le_iff.mp ih
    exact Expr.nestingAt_le_iff.mpr ⟨by omega, fun _ => by omega⟩
  | app _ _ ihf iha =>
    rw [Expr.nestingAt_le_iff, Expr.nesting_app]
    exact ⟨Nat.max_le.mpr ⟨ihf, iha⟩, fun h => absurd h (Nat.lt_irrefl 4)⟩
  | binary _ _ ihl ihr =>
    rw [Expr.nestingAt_le_iff, Expr.nesting_binary]
    exact ⟨Nat.max_le.mpr ⟨ihl, ihr⟩, fun h => absurd h (Nat.lt_irrefl _)⟩
  | cond _ _ _ ihc iht ihe =>
    simp only [Expr.nestingAt_le_iff, Expr.nesting, Expr.precedence, Nat.not_lt_zero,
      false_implies, and_true] at *
    omega
  | letIn _ _ ihv ihb | letRec _ _ ihv ihb =>
    simp only [Expr.nestingAt_le_iff, Expr.nesting, Expr.precedence, Nat.not_lt_zero,
      false_implies, and_true] at *
    omega
  | func _ ih =>
    simp only [Expr.nestingAt_le_iff, Expr.nesting, Expr.precedence, Nat.not_lt_zero,
      false_implies, and_true] at *
    omega
  | above _ _ ih =>
    rw [Expr.nestingAt_le_iff] at *
    exact ⟨ih.1, fun h => ih.2 (by omega)⟩

end BigStep
