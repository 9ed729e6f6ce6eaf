import BigStep.Evaluation
import BigStep.Proofs.Derivation.Validity

/-!
# Evaluation and the rules

Evaluation finds exactly the valid derivations, each once the limit allows its height.

* `Supports eval p`: the premise `p` is what `eval` gives for its judgment, or the leaf of a fact
  about numbers.
* `step_eq_ok_iff`: one rule application succeeds just if the node that it makes is an instance of
  its rule with supported premises. This is the only place where the rules are looked at one by
  one.
* `evalWith_eq_ok_iff`: by induction on the room, the derivation is valid, concludes what was asked
  and is no higher than the room.
* `evaluate_eq_ok_iff_valid`: the same for whole evaluations, with the uniqueness that follows.
-/

namespace BigStep

/-- An operation succeeds with just the results that the facts about numbers give. -/
theorem Operator.apply_eq_ok_iff {op : Operator} {m n : Int} {v : Value} :
    op.apply m n = .ok v ↔ op.Gives m n v := by
  constructor
  · intro h
    cases op <;> simp only [apply, exact] at h
    case less => cases h; exact .less
    all_goals
      split at h
      · cases h; constructor; assumption
      · cases h
  · intro h
    cases h <;> simp_all [apply, exact]

namespace Evaluation

/-- The premise is what `eval` gives for its judgment; one about numbers is the leaf of a fact. -/
def Supports (eval : Env → Expr → Run Derived) (p : Derivation) : Prop :=
  match p.judgment with
  | .evalTo env expr value => (eval env expr).outcome = .ok ⟨value, p⟩
  | .primitive op m n result => op.Gives m n result ∧ p = primitiveLeaf op m n result

/-- Whatever `eval` gives concludes what it was asked for. -/
def Concludes (eval : Env → Expr → Run Derived) : Prop :=
  ∀ env expr d, (eval env expr).outcome = .ok d → d.derivation.judgment = .evalTo env expr d.value

theorem supports_evalTo {eval : Env → Expr → Run Derived} {p : Derivation} {env : Env}
    {expr : Expr} {v : Value} (hp : p.judgment = .evalTo env expr v) :
    Supports eval p ↔ (eval env expr).outcome = .ok ⟨v, p⟩ := by
  simp [Supports, hp]

theorem supports_primitive {eval : Env → Expr → Run Derived} {p : Derivation} {op : Operator}
    {m n : Int} {v : Value} (hp : p.judgment = .primitive op m n v) :
    Supports eval p ↔ op.Gives m n v ∧ p = primitiveLeaf op m n v := by
  simp [Supports, hp]

/-- A premise that `eval` gave is supported, and has the judgment that was asked for. -/
theorem Concludes.supports {eval : Env → Expr → Run Derived} (heval : Concludes eval) {env : Env}
    {expr : Expr} {d : Derived} (h : (eval env expr).outcome = .ok d) :
    d.derivation.judgment = .evalTo env expr d.value ∧ Supports eval d.derivation := by
  have hj := heval env expr d h
  exact ⟨hj, (supports_evalTo hj).mpr h⟩

@[simp] theorem outcome_integer_eq_ok {v : Value} {n : Int} :
    (integer v).outcome = .ok n ↔ v = .int n := by
  cases v <;> simp [integer]

@[simp] theorem outcome_compute (op : Operator) (m n : Int) :
    (compute Operator.apply op m n).outcome = op.apply m n := rfl

@[simp] theorem outcome_reportCall (code : Code) (v : Value) :
    (reportCall code v).outcome = .ok () := by
  unfold reportCall
  split <;> rfl

/-- A rule application that succeeds makes an instance of its rule with supported premises. -/
theorem step_sound {eval : Env → Expr → Run Derived} (heval : Concludes eval) {env : Env}
    {expr : Expr} {d : Derived} (h : (step Operator.apply eval env expr).outcome = .ok d) :
    ∃ rule premises, d = conclude env expr rule premises d.value ∧
      rule.Instance (premises.map (·.judgment)) (.evalTo env expr d.value) ∧
      ∀ p ∈ premises, Supports eval p := by
  cases expr with
  | int n =>
    cases h
    exact ⟨_, _, rfl, .int, by simp⟩
  | bool b =>
    cases h
    exact ⟨_, _, rfl, .bool, by simp⟩
  | var name =>
    cases env with
    | empty => simp [step] at h
    | extend rest bound value =>
      by_cases hb : bound = name
      · subst hb
        simp only [step, if_pos, Run.outcome_pure] at h
        cases h
        exact ⟨_, _, rfl, .var1, by simp⟩
      · simp only [step, if_neg hb, Run.outcome_bind_eq_ok] at h
        obtain ⟨older, ho, h⟩ := h
        cases h
        obtain ⟨hj, hs⟩ := heval.supports ho
        refine ⟨_, _, rfl, ?_, by simpa using hs⟩
        simpa [hj, conclude] using .var2 hb
  | binary op left right =>
    simp only [step, Run.outcome_bind_eq_ok, outcome_integer_eq_ok, outcome_compute,
      Operator.apply_eq_ok_iff] at h
    obtain ⟨l, hl, r, hr, m, hm, n, hn, v, hv, h⟩ := h
    cases h
    obtain ⟨hjl, hsl⟩ := heval.supports hl
    obtain ⟨hjr, hsr⟩ := heval.supports hr
    have hsp : Supports eval (primitiveLeaf op m n v) := (supports_primitive rfl).mpr ⟨hv, rfl⟩
    refine ⟨_, _, rfl, ?_, by simpa using ⟨hsl, hsr, hsp⟩⟩
    simpa [hjl, hjr, hm, hn, primitiveLeaf, conclude] using .operation
  | cond condition thenBranch elseBranch =>
    simp only [step, Run.outcome_bind_eq_ok] at h
    obtain ⟨c, hc, h⟩ := h
    obtain ⟨hjc, hsc⟩ := heval.supports hc
    split at h
    · next hv =>
      obtain ⟨t, ht, h⟩ := Run.outcome_bind_eq_ok.mp h
      cases h
      obtain ⟨hjt, hst⟩ := heval.supports ht
      refine ⟨_, _, rfl, ?_, by simpa using ⟨hsc, hst⟩⟩
      simpa [hjc, hjt, hv, conclude] using .condTrue
    · next hv =>
      obtain ⟨e, he, h⟩ := Run.outcome_bind_eq_ok.mp h
      cases h
      obtain ⟨hje, hse⟩ := heval.supports he
      refine ⟨_, _, rfl, ?_, by simpa using ⟨hsc, hse⟩⟩
      simpa [hjc, hje, hv, conclude] using .condFalse
    · cases h
  | letIn name value body =>
    simp only [step, Run.outcome_bind_eq_ok] at h
    obtain ⟨w, hw, b, hb, h⟩ := h
    cases h
    obtain ⟨hjw, hsw⟩ := heval.supports hw
    obtain ⟨hjb, hsb⟩ := heval.supports hb
    refine ⟨_, _, rfl, ?_, by simpa using ⟨hsw, hsb⟩⟩
    simpa [hjw, hjb, conclude] using .letIn
  | letRec name param functionBody body =>
    simp only [step, Run.outcome_bind_eq_ok] at h
    obtain ⟨b, hb, h⟩ := h
    cases h
    obtain ⟨hjb, hsb⟩ := heval.supports hb
    refine ⟨_, _, rfl, ?_, by simpa using hsb⟩
    simpa [hjb, conclude] using .letRec
  | func param body =>
    cases h
    exact ⟨_, _, rfl, .func, by simp⟩
  | app function argument =>
    simp only [step, Run.outcome_bind_eq_ok] at h
    obtain ⟨f, hf, h⟩ := h
    obtain ⟨hjf, hsf⟩ := heval.supports hf
    split at h
    · next captured code hv =>
      simp only [Run.outcome_bind_eq_ok] at h
      obtain ⟨a, ha, _, -, b, hb, h⟩ := h
      cases h
      obtain ⟨hja, hsa⟩ := heval.supports ha
      obtain ⟨hjb, hsb⟩ := heval.supports hb
      refine ⟨_, _, rfl, ?_, by simpa using ⟨hsf, hsa, hsb⟩⟩
      obtain ⟨_ | name, param, body⟩ := code
      · simpa [hjf, hja, hjb, hv, conclude] using .app
      · simpa [hjf, hja, hjb, hv, conclude] using .appRec
    · cases h

/-- An instance of a rule with supported premises is what the rule application makes. -/
theorem step_complete {eval : Env → Expr → Run Derived} {env : Env} {expr : Expr} {rule : Rule}
    {premises : List Derivation} {v : Value}
    (hi : rule.Instance (premises.map (·.judgment)) (.evalTo env expr v))
    (hp : ∀ p ∈ premises, Supports eval p) :
    (step Operator.apply eval env expr).outcome = .ok (conclude env expr rule premises v) := by
  generalize hjs : premises.map (·.judgment) = js at hi
  cases hi with
  | int | bool | func =>
    obtain rfl := List.map_eq_nil_iff.mp hjs
    rfl
  | var1 =>
    obtain rfl := List.map_eq_nil_iff.mp hjs
    simp [step]
  | var2 hne =>
    simp only [List.map_eq_cons_iff, List.map_eq_nil_iff] at hjs
    obtain ⟨p, _, rfl, hj, rfl⟩ := hjs
    have he := (supports_evalTo hj).mp (hp p (by simp))
    simp [step, hne, he, conclude]
  | operation =>
    simp only [List.map_eq_cons_iff, List.map_eq_nil_iff] at hjs
    obtain ⟨l, _, rfl, hjl, r, _, rfl, hjr, p, _, rfl, hjp, rfl⟩ := hjs
    have hl := (supports_evalTo hjl).mp (hp l (by simp))
    have hr := (supports_evalTo hjr).mp (hp r (by simp))
    obtain ⟨hgives, hleaf⟩ := (supports_primitive hjp).mp (hp p (by simp))
    simp [step, hl, hr, Operator.apply_eq_ok_iff.mpr hgives, hleaf, conclude]
  | condTrue | condFalse =>
    simp only [List.map_eq_cons_iff, List.map_eq_nil_iff] at hjs
    obtain ⟨c, _, rfl, hjc, b, _, rfl, hjb, rfl⟩ := hjs
    have hc := (supports_evalTo hjc).mp (hp c (by simp))
    have hb := (supports_evalTo hjb).mp (hp b (by simp))
    simp [step, hc, hb, conclude]
  | letIn =>
    simp only [List.map_eq_cons_iff, List.map_eq_nil_iff] at hjs
    obtain ⟨e, _, rfl, hje, b, _, rfl, hjb, rfl⟩ := hjs
    have he := (supports_evalTo hje).mp (hp e (by simp))
    have hb := (supports_evalTo hjb).mp (hp b (by simp))
    simp [step, he, hb, conclude]
  | letRec =>
    simp only [List.map_eq_cons_iff, List.map_eq_nil_iff] at hjs
    obtain ⟨b, _, rfl, hjb, rfl⟩ := hjs
    have hb := (supports_evalTo hjb).mp (hp b (by simp))
    simp [step, hb, conclude]
  | app | appRec =>
    simp only [List.map_eq_cons_iff, List.map_eq_nil_iff] at hjs
    obtain ⟨f, _, rfl, hjf, a, _, rfl, hja, b, _, rfl, hjb, rfl⟩ := hjs
    have hf := (supports_evalTo hjf).mp (hp f (by simp))
    have ha := (supports_evalTo hja).mp (hp a (by simp))
    have hb := (supports_evalTo hjb).mp (hp b (by simp))
    simp [step, hf, ha, hb, callEnv, callRule, conclude]

/-- One rule application succeeds just if its node is an instance of its rule with supported
premises. -/
theorem step_eq_ok_iff {eval : Env → Expr → Run Derived} (heval : Concludes eval) {env : Env}
    {expr : Expr} {v : Value} {d : Derivation} :
    (step Operator.apply eval env expr).outcome = .ok ⟨v, d⟩ ↔
      d.judgment = .evalTo env expr v ∧
      d.rule.Instance (d.premises.map (·.judgment)) d.judgment ∧
      ∀ p ∈ d.premises, Supports eval p := by
  constructor
  · intro h
    obtain ⟨rule, premises, hd, hi, hp⟩ := step_sound heval h
    simp only [conclude, Derived.mk.injEq, true_and] at hd
    subst hd
    exact ⟨rfl, hi, hp⟩
  · rintro ⟨hj, hi, hp⟩
    obtain ⟨judgment, rule, premises⟩ := d
    subst hj
    exact step_complete hi hp

theorem concludes_evalWith (limit room : Nat) :
    Concludes (evalWith Operator.apply limit room) := by
  induction room with
  | zero => intro env expr d h; cases h
  | succ room ih => intro env expr d h; exact ((step_eq_ok_iff ih).mp h).1

/-- A fact about numbers is valid just as the leaf that evaluation makes of it. -/
theorem valid_primitive_iff {p : Derivation} {op : Operator} {m n : Int} {v : Value}
    (hj : p.judgment = .primitive op m n v) :
    p.Valid ↔ op.Gives m n v ∧ p = primitiveLeaf op m n v := by
  obtain ⟨judgment, rule, premises⟩ := p
  subst hj
  rw [Derivation.valid_iff]
  constructor
  · rintro ⟨hi, -⟩
    generalize hjs : premises.map (·.judgment) = js at hi
    cases hi with
    | primitive h =>
      obtain rfl := List.map_eq_nil_iff.mp hjs
      exact ⟨h, rfl⟩
  · rintro ⟨h, he⟩
    cases he
    exact ⟨.primitive h, by simp⟩

theorem height_primitiveLeaf (op : Operator) (m n : Int) (v : Value) :
    (primitiveLeaf op m n v).height = 0 := rfl

/-- Evaluation with some room gives exactly the valid derivations that are no higher. -/
theorem evalWith_eq_ok_iff (limit : Nat) {room : Nat} {env : Env} {expr : Expr} {v : Value}
    {d : Derivation} :
    (evalWith Operator.apply limit room env expr).outcome = .ok ⟨v, d⟩ ↔
      d.Valid ∧ d.judgment = .evalTo env expr v ∧ d.height ≤ room := by
  induction room generalizing env expr v d with
  | zero =>
    constructor
    · intro h; cases h
    · rintro ⟨hv, hj, hh⟩
      have := hv.height_pos hj
      omega
  | succ room ih =>
    -- By the induction hypothesis, a premise is supported just if it is valid and fits.
    have hsupports : ∀ p : Derivation,
        Supports (evalWith Operator.apply limit room) p ↔ p.Valid ∧ p.height ≤ room := by
      intro p
      cases hj : p.judgment with
      | evalTo env expr v => rw [supports_evalTo hj, ih]; simp [hj]
      | primitive op m n v =>
        rw [supports_primitive hj, valid_primitive_iff hj]
        constructor
        · rintro ⟨hg, rfl⟩
          exact ⟨⟨hg, rfl⟩, by simp [height_primitiveLeaf]⟩
        · exact fun h => h.1
    rw [evalWith, Run.outcome_within, step_eq_ok_iff (concludes_evalWith limit room),
      Derivation.valid_iff]
    constructor
    · rintro ⟨hj, hi, hp⟩
      have heval := Derivation.isEvaluation_of_instance (hj ▸ hi)
      refine ⟨⟨hi, fun p h => ((hsupports p).mp (hp p h)).1⟩, hj, ?_⟩
      exact (Derivation.height_le_succ_iff heval).mpr fun p h => ((hsupports p).mp (hp p h)).2
    · rintro ⟨⟨hi, hp⟩, hj, hh⟩
      have heval := Derivation.isEvaluation_of_instance (hj ▸ hi)
      have hle := (Derivation.height_le_succ_iff heval).mp hh
      exact ⟨hj, hi, fun p h => (hsupports p).mpr ⟨hp p h, hle p h⟩⟩

end Evaluation

open Evaluation

theorem evaluate_eq_ok_iff {limit : Nat} {env : Env} {expr : Expr} {v : Value} {d : Derivation} :
    (∃ steps, evaluate limit env expr = .ok ⟨v, d, steps⟩) ↔
      d.Valid ∧ d.judgment = .evalTo env expr v ∧ d.height ≤ limit := by
  rw [← evalWith_eq_ok_iff limit]
  cases h : (run limit env expr).outcome with
  | error e => simp_all [evaluate, run, Except.map]
  | ok derived =>
    obtain ⟨value, derivation⟩ := derived
    simp_all [evaluate, run, Except.map]

/-- A goal has at most one value and one valid derivation: evaluation with room for two of them
would give both. -/
theorem Derivation.Valid.unique {env : Env} {expr : Expr} {v₁ v₂ : Value} {d₁ d₂ : Derivation}
    (h₁ : d₁.Valid) (hj₁ : d₁.judgment = .evalTo env expr v₁)
    (h₂ : d₂.Valid) (hj₂ : d₂.judgment = .evalTo env expr v₂) : v₁ = v₂ ∧ d₁ = d₂ := by
  have e₁ := (evalWith_eq_ok_iff 0).mpr ⟨h₁, hj₁, Nat.le_max_left d₁.height d₂.height⟩
  have e₂ := (evalWith_eq_ok_iff 0).mpr ⟨h₂, hj₂, Nat.le_max_right d₁.height d₂.height⟩
  rw [e₁] at e₂
  cases e₂
  exact ⟨rfl, rfl⟩

/-- Evaluation succeeds with exactly the valid derivations that conclude what was asked and in
which evaluations are nested no deeper than the limit. There is at most one value and one such
derivation. -/
theorem evaluate_eq_ok_iff_valid (env : Env) (expr : Expr) :
    (∀ (limit : Nat) (v : Value) (d : Derivation),
      (∃ steps, evaluate limit env expr = .ok ⟨v, d, steps⟩) ↔
        d.Valid ∧ d.judgment = .evalTo env expr v ∧ d.height ≤ limit) ∧
    (∀ (v₁ v₂ : Value) (d₁ d₂ : Derivation),
      d₁.Valid ∧ d₁.judgment = .evalTo env expr v₁ → d₂.Valid ∧ d₂.judgment = .evalTo env expr v₂ →
        v₁ = v₂ ∧ d₁ = d₂) :=
  ⟨fun _ _ _ => evaluate_eq_ok_iff, fun _ _ _ _ h₁ h₂ => h₁.1.unique h₁.2 h₂.1 h₂.2⟩

end BigStep
