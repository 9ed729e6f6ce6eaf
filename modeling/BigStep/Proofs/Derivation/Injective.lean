import BigStep.Proofs.Derivation.Validity
import BigStep.Proofs.Value.Injective
import BigStep.Proofs.Value.Names

/-!
# Derivations are determined by their texts

A derivation is shown line by line. A line is read from its right end: the brace, the rule, the
value, each of them a single word. What is left of it is cut at the turnstile. The lines are put
back into a tree by the indentation of the closing braces.

* `Judgment.Spellable`, `Derivation.Spellable`: every name is an identifier and every literal can be
  written, in all the judgments. The rules and the premises are arbitrary.
* `Judgment.text_inj`, `Rule.name_inj`: what a line shows determines the judgment and the rule.
* `SelfDelimiting`: it is clear where the text of a derivation ends, whatever follows it. This is
  what the induction over the tree carries.
* `Derivation.text_eq_iff_eq`: two derivations have the same text only if they are the same.
-/

namespace BigStep

open Text

theorem Operator.verb_inj {op₁ op₂ : Operator} (h : op₁.verb = op₂.verb) : op₁ = op₂ := by
  cases op₁ <;> cases op₂ <;> first | rfl | exact absurd h (by decide)

/-! ## Judgments -/

namespace Judgment

/-- Every name in the judgment is an identifier, and every literal in an expression can be
written. -/
def Spellable : Judgment → Prop
  | evalTo env expr value => env.Spellable ∧ expr.Spellable ∧ value.Spellable
  | primitive _ _ _ result => result.Spellable

/-- The names in the judgment. -/
def names : Judgment → List String
  | evalTo env expr value => env.names ++ (expr.names ++ value.names)
  | primitive _ _ _ result => result.names

theorem Spellable.names {j : Judgment} (h : j.Spellable) : ∀ name ∈ j.names, IsIdentifier name := by
  cases j with
  | evalTo env expr value =>
    simp only [Judgment.names, List.forall_mem_append]
    exact ⟨env.names_of_spellable h.1, h.2.1.names, value.names_of_spellable h.2.2⟩
  | primitive op left right result => exact result.names_of_spellable h

/-- What stands before the turnstile. -/
def beforeTurnstile (env : Env) : List Char :=
  if env.isEmpty then [] else env.text.toList ++ [' ']

theorem toList_goalText (env : Env) (expr : Expr) :
    (goalText env expr).toList =
      beforeTurnstile env ++ '|' :: ("- ".toList ++ expr.text.toList) := by
  unfold goalText beforeTurnstile
  split <;> simp

theorem bar_not_mem_beforeTurnstile {env : Env} (h : env.Spellable) :
    '|' ∉ beforeTurnstile env := by
  unfold beforeTurnstile
  split
  · exact List.not_mem_nil
  · simpa using h.balanced_text.not_mem_bar

theorem beforeTurnstile_cancel {env₁ env₂ : Env} (h₁ : env₁.Spellable) (h₂ : env₂.Spellable)
    (h : beforeTurnstile env₁ = beforeTurnstile env₂) : env₁ = env₂ := by
  cases env₁ with
  | empty =>
    cases env₂ with
    | empty => rfl
    | extend rest₂ name₂ v₂ => simp [beforeTurnstile, Env.isEmpty] at h
  | extend rest₁ name₁ v₁ =>
    cases env₂ with
    | empty => simp [beforeTurnstile, Env.isEmpty] at h
    | extend rest₂ name₂ v₂ =>
      simp only [beforeTurnstile, Env.isEmpty] at h
      exact (Env.text_inj h₁ h₂).mp (String.toList_inj.mp (List.append_cancel_right h))

/-- The first bar is that of the turnstile, as neither names nor brackets have one. -/
theorem goalText_cancel {env₁ env₂ : Env} {e₁ e₂ : Expr} (henv₁ : env₁.Spellable)
    (henv₂ : env₂.Spellable) (he₁ : e₁.Spellable) (he₂ : e₂.Spellable)
    (h : goalText env₁ e₁ = goalText env₂ e₂) : env₁ = env₂ ∧ e₁ = e₂ := by
  rw [← String.toList_inj, toList_goalText, toList_goalText] at h
  obtain ⟨henv, hexpr⟩ := cut_cancel (bar_not_mem_beforeTurnstile henv₁)
    (bar_not_mem_beforeTurnstile henv₂) h
  exact ⟨beforeTurnstile_cancel henv₁ henv₂ henv,
    (Expr.text_inj he₁ he₂).mp (String.toList_inj.mp (List.append_cancel_left hexpr))⟩

/-- The last word of an evaluation is the value, also where the expression has a variable
`evalto`. -/
theorem evalTo_cancel {env₁ env₂ : Env} {e₁ e₂ : Expr} {v₁ v₂ : Value}
    (h₁ : (evalTo env₁ e₁ v₁).Spellable) (h₂ : (evalTo env₂ e₂ v₂).Spellable)
    (h : (evalTo env₁ e₁ v₁).text = (evalTo env₂ e₂ v₂).text) :
    evalTo env₁ e₁ v₁ = evalTo env₂ e₂ v₂ := by
  obtain ⟨henv₁, he₁, hv₁⟩ := h₁
  obtain ⟨henv₂, he₂, hv₂⟩ := h₂
  have hwords : ((goalText env₁ e₁).toList ++ " evalto".toList) ++ ' ' :: v₁.text.toList =
      ((goalText env₂ e₂).toList ++ " evalto".toList) ++ ' ' :: v₂.text.toList := by
    rw [← String.toList_inj] at h
    simpa [text] using h
  obtain ⟨hgoal, hvalue⟩ := (v₁.word_text hv₁).cancel (v₂.word_text hv₂) hwords
  obtain ⟨rfl, rfl⟩ := goalText_cancel henv₁ henv₂ he₁ he₂
    (String.toList_inj.mp (List.append_cancel_right hgoal))
  rw [(Value.text_inj hv₁ hv₂).mp (String.toList_inj.mp hvalue)]

/-- From the right a fact about numbers has the result, `is` and the right operand. The rest is cut
at its first space, as the verb may be two words. -/
theorem primitive_cancel {op₁ op₂ : Operator} {l₁ l₂ r₁ r₂ : Int} {v₁ v₂ : Value}
    (h₁ : v₁.Spellable) (h₂ : v₂.Spellable)
    (h : (primitive op₁ l₁ r₁ v₁).text = (primitive op₂ l₂ r₂ v₂).text) :
    primitive op₁ l₁ r₁ v₁ = primitive op₂ l₂ r₂ v₂ := by
  have hwords : ((Decimal.write l₁).toList ++ ' ' :: op₁.verb.toList ++
        ' ' :: (Decimal.write r₁).toList ++ " is".toList) ++ ' ' :: v₁.text.toList =
      ((Decimal.write l₂).toList ++ ' ' :: op₂.verb.toList ++
        ' ' :: (Decimal.write r₂).toList ++ " is".toList) ++ ' ' :: v₂.text.toList := by
    rw [← String.toList_inj] at h
    simpa [text] using h
  obtain ⟨hfact, hvalue⟩ := (v₁.word_text h₁).cancel (v₂.word_text h₂) hwords
  obtain ⟨hfront, hright⟩ :=
    (word_write r₁).cancel (word_write r₂) (List.append_cancel_right hfact)
  obtain ⟨hleft, hverb⟩ := cut_cancel (not_mem_of_isInk (all_isInk_write l₁) rfl)
    (not_mem_of_isInk (all_isInk_write l₂) rfl) hfront
  rw [Decimal.write_inj.mp (String.toList_inj.mp hleft),
    Operator.verb_inj (String.toList_inj.mp hverb),
    Decimal.write_inj.mp (String.toList_inj.mp hright),
    (Value.text_inj h₁ h₂).mp (String.toList_inj.mp hvalue)]

theorem bar_mem_evalTo (env : Env) (expr : Expr) (value : Value) :
    '|' ∈ (evalTo env expr value).text.toList := by
  simp [text, toList_goalText]

theorem bar_not_mem_primitive (op : Operator) (left right : Int) {result : Value}
    (h : result.Spellable) : '|' ∉ (primitive op left right result).text.toList := by
  have hverb : '|' ∉ op.verb.toList := by cases op <;> decide
  have hresult := (result.tidy_text_of_spellable h).balanced.not_mem_bar
  simp [text, (tidy_write _).balanced.not_mem_bar, hverb, hresult]

/-- The text of a judgment determines it. -/
theorem text_inj {j₁ j₂ : Judgment} (h₁ : j₁.Spellable) (h₂ : j₂.Spellable) :
    j₁.text = j₂.text ↔ j₁ = j₂ := by
  refine ⟨fun h => ?_, congrArg text⟩
  cases j₁ with
  | evalTo env₁ e₁ v₁ =>
    cases j₂ with
    | evalTo env₂ e₂ v₂ => exact evalTo_cancel h₁ h₂ h
    | primitive op₂ l₂ r₂ v₂ =>
      exact absurd (h ▸ bar_mem_evalTo env₁ e₁ v₁) (bar_not_mem_primitive op₂ l₂ r₂ h₂)
  | primitive op₁ l₁ r₁ v₁ =>
    cases j₂ with
    | evalTo env₂ e₂ v₂ =>
      exact absurd (h ▸ bar_mem_evalTo env₂ e₂ v₂) (bar_not_mem_primitive op₁ l₁ r₁ h₁)
    | primitive op₂ l₂ r₂ v₂ => exact primitive_cancel h₁ h₂ h

theorem newline_not_mem_text {j : Judgment} (h : ∀ name ∈ j.names, IsIdentifier name) :
    '\n' ∉ j.text.toList := by
  cases j with
  | evalTo env expr value =>
    simp only [names, List.forall_mem_append] at h
    have henv := env.newline_not_mem_text h.1
    have hfront : '\n' ∉ beforeTurnstile env := by
      unfold beforeTurnstile
      split <;> simp [henv]
    simp [text, toList_goalText, hfront, Expr.newline_not_mem_text h.2.1,
      value.newline_not_mem_text h.2.2]
  | primitive op left right result =>
    have hverb : '\n' ∉ op.verb.toList := by cases op <;> decide
    have hwrite (n : Int) := newline_not_mem_of_isInk (all_isInk_write n)
    simp [text, hwrite, hverb, result.newline_not_mem_text h]

end Judgment

/-! ## Rules -/

namespace Rule

theorem all_isInk_name (rule : Rule) : rule.name.toList.all isInk = true := by
  cases rule with
  | operation op | primitive op => cases op <;> rfl
  | _ => rfl

/-- Every rule. -/
def all : List Rule :=
  [int, bool, var1, var2, condTrue, condFalse, letIn, func, app, letRec, appRec,
    operation .add, operation .sub, operation .mul, operation .less,
    primitive .add, primitive .sub, primitive .mul, primitive .less]

theorem find?_name (rule : Rule) : all.find? (fun r => r.name == rule.name) = some rule := by
  cases rule with
  | operation op | primitive op => cases op <;> decide
  | _ => decide

/-- No two rules have the same name. -/
theorem name_inj {r₁ r₂ : Rule} : r₁.name = r₂.name ↔ r₁ = r₂ := by
  refine ⟨fun h => ?_, congrArg name⟩
  have hfind := find?_name r₁
  rw [h, find?_name] at hfind
  exact (Option.some.inj hfind).symm

end Rule

/-! ## Derivations -/

namespace Derivation

/-- In every judgment names are identifiers and literals can be written. -/
def Spellable (d : Derivation) : Prop := ∀ node ∈ d.nodes, node.judgment.Spellable

theorem Spellable.judgment {d : Derivation} (h : d.Spellable) : d.judgment.Spellable :=
  h d (mem_nodes_self d)

theorem Spellable.of_mem {d p : Derivation} (h : d.Spellable) (hp : p ∈ d.premises) :
    p.Spellable := fun node hn => h node (mem_nodes.mpr (.inr ⟨p, hp, hn⟩))

/-- How the first line of a derivation ends: the braces stay open if there are premises. -/
def brace : List Derivation → String
  | [] => "\x7b\x7d;"
  | _ :: _ => "\x7b"

/-- The first line of a derivation, without its indentation. -/
def headline (d : Derivation) : List Char :=
  d.judgment.text.toList ++ " by".toList ++ ' ' :: d.rule.name.toList ++
    ' ' :: (brace d.premises).toList

/-- The lines behind the first one: those of the premises, and the closing brace. -/
def body (depth : Nat) : List Derivation → List Char
  | [] => []
  | p :: ps => (renderAll (depth + 1) (p :: ps)).toList ++ (line depth "\x7d;").toList

theorem toList_line (depth : Nat) (text : String) :
    (line depth text).toList = List.replicate (depth * 4) ' ' ++ (text.toList ++ ['\n']) := by
  simp [line, indentWidth, toList_spaces]

theorem toList_render (depth : Nat) (d : Derivation) :
    (d.render depth).toList =
      List.replicate (depth * 4) ' ' ++ (d.headline ++ '\n' :: body depth d.premises) := by
  obtain ⟨judgment, rule, _ | ⟨p, ps⟩⟩ := d <;>
    simp [render, toList_line, headline, brace, body]

theorem all_isInk_brace (premises : List Derivation) :
    (brace premises).toList.all isInk = true := by
  cases premises with
  | nil => rfl
  | cons p ps =>
    rw [brace]
    rfl

theorem newline_not_mem_headline {d : Derivation}
    (h : ∀ name ∈ d.judgment.names, IsIdentifier name) : '\n' ∉ d.headline := by
  simp [headline, Judgment.newline_not_mem_text h,
    newline_not_mem_of_isInk d.rule.all_isInk_name,
    newline_not_mem_of_isInk (all_isInk_brace d.premises)]

/-- From the right a first line has the brace, the rule and `by`. -/
theorem headline_cancel {d₁ d₂ : Derivation} (h₁ : d₁.Spellable) (h₂ : d₂.Spellable)
    (h : d₁.headline = d₂.headline) :
    d₁.judgment = d₂.judgment ∧ d₁.rule = d₂.rule ∧ brace d₁.premises = brace d₂.premises := by
  unfold headline at h
  obtain ⟨hfront, hbrace⟩ :=
    (Word.of_all (all_isInk_brace d₁.premises)).cancel (.of_all (all_isInk_brace d₂.premises)) h
  obtain ⟨hjudgment, hrule⟩ :=
    (Word.of_all d₁.rule.all_isInk_name).cancel (.of_all d₂.rule.all_isInk_name) hfront
  have htext := String.toList_inj.mp (List.append_cancel_right hjudgment)
  exact ⟨(Judgment.text_inj h₁.judgment h₂.judgment).mp htext,
    Rule.name_inj.mp (String.toList_inj.mp hrule), String.toList_inj.mp hbrace⟩

/-- Whatever follows the text of `d`, no other derivation at the same depth begins like it. -/
def SelfDelimiting (d : Derivation) : Prop :=
  ∀ (depth : Nat) (d' : Derivation) (rest rest' : List Char), d'.Spellable →
    (d.render depth).toList ++ rest = (d'.render depth).toList ++ rest' → d = d' ∧ rest = rest'

/-- A closing brace stands where a premise would still be indented. -/
theorem closing_ne_render (depth : Nat) (d : Derivation) (rest rest' : List Char) :
    (line depth "\x7d;").toList ++ rest ≠ (d.render (depth + 1)).toList ++ rest' := by
  intro h
  rw [toList_line, toList_render, Nat.add_mul, ← List.replicate_append_replicate] at h
  simp only [List.append_assoc] at h
  cases List.append_cancel_left h

theorem renderAll_cancel {ps qs : List Derivation} (hps : ∀ p ∈ ps, p.SelfDelimiting)
    (hqs : ∀ q ∈ qs, q.Spellable) {depth : Nat} {rest rest' : List Char}
    (h : (renderAll (depth + 1) ps).toList ++ ((line depth "\x7d;").toList ++ rest) =
      (renderAll (depth + 1) qs).toList ++ ((line depth "\x7d;").toList ++ rest')) :
    ps = qs ∧ rest = rest' := by
  induction ps generalizing qs with
  | nil =>
    cases qs with
    | nil =>
      have hclosing := List.append_cancel_left h
      exact ⟨rfl, List.append_cancel_left hclosing⟩
    | cons q qs =>
      simp only [renderAll, String.toList_append, String.toList_empty, List.nil_append,
        List.append_assoc] at h
      exact absurd h (closing_ne_render depth q _ _)
  | cons p ps ih =>
    rw [List.forall_mem_cons] at hps
    cases qs with
    | nil =>
      simp only [renderAll, String.toList_append, String.toList_empty, List.nil_append,
        List.append_assoc] at h
      exact absurd h.symm (closing_ne_render depth p _ _)
    | cons q qs =>
      rw [List.forall_mem_cons] at hqs
      simp only [renderAll, String.toList_append, List.append_assoc] at h
      obtain ⟨rfl, hlater⟩ := hps.1 _ _ _ _ hqs.1 h
      obtain ⟨rfl, hrest⟩ := ih hps.2 hqs.2 hlater
      exact ⟨rfl, hrest⟩

/-- The brace tells whether there are premises, and the lines which ones. -/
theorem body_cancel {ps qs : List Derivation} (hps : ∀ p ∈ ps, p.SelfDelimiting)
    (hqs : ∀ q ∈ qs, q.Spellable) (hbrace : brace ps = brace qs) {depth : Nat}
    {rest rest' : List Char} (h : body depth ps ++ rest = body depth qs ++ rest') :
    ps = qs ∧ rest = rest' := by
  cases ps with
  | nil =>
    cases qs with
    | nil => exact ⟨rfl, h⟩
    | cons q qs => exact absurd hbrace (by simp [brace])
  | cons p ps =>
    cases qs with
    | nil => exact absurd hbrace (by simp [brace])
    | cons q qs =>
      rw [body, body, List.append_assoc, List.append_assoc] at h
      exact renderAll_cancel hps hqs h

/-- Induction over the tree: the first line ends at its newline, and then come the premises. -/
theorem selfDelimiting {d : Derivation} (h : d.Spellable) : d.SelfDelimiting := by
  induction d using Derivation.induction with
  | node d ih =>
    intro depth d' rest rest' h' htext
    simp only [toList_render, List.append_assoc, List.cons_append] at htext
    have hlines := List.append_cancel_left htext
    obtain ⟨hhead, hbody⟩ :=
      cut_cancel (newline_not_mem_headline h.judgment.names)
        (newline_not_mem_headline h'.judgment.names) hlines
    obtain ⟨hjudgment, hrule, hbrace⟩ := headline_cancel h h' hhead
    obtain ⟨hpremises, hrest⟩ := body_cancel (fun p hp => ih p hp (h.of_mem hp))
      (fun q hq => h'.of_mem hq) hbrace hbody
    refine ⟨?_, hrest⟩
    obtain ⟨judgment, rule, premises⟩ := d
    obtain ⟨judgment', rule', premises'⟩ := d'
    rw [mk.injEq]
    exact ⟨hjudgment, hrule, hpremises⟩

/-- Derivation text is unambiguous: derivations of any shape in which names are identifiers and
literals can be written have the same text only if they have the same judgments, rules and premises
at every node. -/
theorem text_eq_iff_eq {d₁ d₂ : Derivation} (h₁ : d₁.Spellable) (h₂ : d₂.Spellable) :
    d₁.text = d₂.text ↔ d₁ = d₂ := by
  refine ⟨fun h => ?_, congrArg text⟩
  have hrender : (d₁.render 0).toList ++ [] = (d₂.render 0).toList ++ [] :=
    congrArg (fun t => t.toList ++ []) h
  exact (selfDelimiting h₁ 0 d₂ [] [] h₂ hrender).1

/-- `|- f evalto 1 evalto 2`, where the first `evalto` is a variable. -/
def crowded : Judgment :=
  .evalTo .empty (.app (.app (.var "f") (.var "evalto")) (.int 1)) (.int 2)

theorem spellable_crowded : crowded.Spellable :=
  ⟨trivial, ⟨⟨(by decide : IsIdentifier "f"), (by decide : IsIdentifier "evalto")⟩,
    (by decide : 0 ≤ (1 : Int) ∧ 1 ≤ Integer.greatest)⟩, trivial⟩

/-- Two premises side by side. -/
def crowdedPair : Derivation := ⟨crowded, .app, [⟨crowded, .app, []⟩, ⟨crowded, .app, []⟩]⟩

/-- One premise inside the other. -/
def crowdedTower : Derivation := ⟨crowded, .app, [⟨crowded, .app, [⟨crowded, .app, []⟩]⟩]⟩

theorem text_eq_iff_eq_crowded :
    crowdedPair.Spellable ∧ crowdedTower.Spellable ∧ crowdedPair.text ≠ crowdedTower.text := by
  have hpair : crowdedPair.Spellable := by
    simp [Spellable, crowdedPair, nodes, nodesAll, spellable_crowded]
  have htower : crowdedTower.Spellable := by
    simp [Spellable, crowdedTower, nodes, nodesAll, spellable_crowded]
  refine ⟨hpair, htower, fun h => ?_⟩
  cases (text_eq_iff_eq hpair htower).mp h

end Derivation

end BigStep
