import BigStep.Proofs.Evaluation.Agreement
import BigStep.Proofs.Evaluation.Limit

/-!
# What can be derived

A judgment is derivable if some valid derivation concludes it, however high. Evaluation under a
limit is about derivations of a certain height; what it says once the limit is left open is about
derivability.

* `Judgment.Derivable`: there is a valid derivation of the judgment.
* `Rule.Instance.derivable`, `Judgment.Derivable.induction`: derivability is built up by the rules
  and by nothing else, so derivations can be left out of proofs about values.
* `evaluate_of_derivable`, `derivable_of_evaluate`: a value is derivable just if evaluation gives
  it, and then under every limit that is large enough.
* `evaluate_error_definitive`: an error other than the limit leaves nothing to derive.
-/

namespace BigStep

/-- Some valid derivation, of whatever height, concludes the judgment. -/
def Judgment.Derivable (j : Judgment) : Prop := ∃ d : Derivation, d.Valid ∧ d.judgment = j

/-- Derivable judgments have a list of valid derivations. -/
theorem exists_derivations {js : List Judgment} (h : ∀ j ∈ js, j.Derivable) :
    ∃ ds : List Derivation, ds.map (·.judgment) = js ∧ ∀ d ∈ ds, d.Valid := by
  induction js with
  | nil => exact ⟨[], rfl, nofun⟩
  | cons j js ih =>
    rw [List.forall_mem_cons] at h
    obtain ⟨d, hd, rfl⟩ := h.1
    obtain ⟨ds, rfl, hds⟩ := ih h.2
    exact ⟨d :: ds, rfl, List.forall_mem_cons.mpr ⟨hd, hds⟩⟩

/-- What follows by a rule from derivable judgments is derivable. -/
theorem Rule.Instance.derivable {rule : Rule} {premises : List Judgment} {conclusion : Judgment}
    (h : rule.Instance premises conclusion) (hp : ∀ p ∈ premises, p.Derivable) :
    conclusion.Derivable := by
  obtain ⟨ds, rfl, hds⟩ := exists_derivations hp
  exact ⟨⟨conclusion, rule, ds⟩, Derivation.valid_iff.mpr ⟨h, hds⟩, rfl⟩

/-- Induction over the rules: what every rule carries from derivable premises to its conclusion
holds of every derivable judgment. -/
@[elab_as_elim]
theorem Judgment.Derivable.induction {motive : (j : Judgment) → j.Derivable → Prop}
    (rule : ∀ (rule : Rule) (premises : List Judgment) (conclusion : Judgment)
      (h : rule.Instance premises conclusion) (hp : ∀ p ∈ premises, p.Derivable),
      (∀ p (hmem : p ∈ premises), motive p (hp p hmem)) → motive conclusion (h.derivable hp))
    {j : Judgment} (h : j.Derivable) : motive j h := by
  obtain ⟨d, hd, rfl⟩ := h
  induction d using Derivation.induction with
  | node d ih =>
    obtain ⟨hinstance, hpremises⟩ := Derivation.valid_iff.mp hd
    refine rule d.rule (d.premises.map (·.judgment)) d.judgment hinstance ?_ ?_
    · exact List.forall_mem_map.mpr fun p hp => ⟨p, hpremises p hp, rfl⟩
    · intro j hj
      obtain ⟨p, hp, rfl⟩ := List.mem_map.mp hj
      exact ih p hp (hpremises p hp)

/-! ## Values -/

/-- A value that evaluation gives is derivable. -/
theorem derivable_of_evaluate {limit : Nat} {env : Env} {expr : Expr} {ev : Evaluation}
    (h : evaluate limit env expr = .ok ev) : (Judgment.evalTo env expr ev.value).Derivable := by
  obtain ⟨hvalid, hjudgment, -⟩ := evaluate_eq_ok_iff.mp ⟨ev.steps, h⟩
  exact ⟨ev.derivation, hvalid, hjudgment⟩

/-- A derivable value is what evaluation gives under every limit that is large enough. -/
theorem evaluate_of_derivable {env : Env} {expr : Expr} {v : Value}
    (h : (Judgment.evalTo env expr v).Derivable) :
    ∃ least, ∀ limit, least ≤ limit → ∃ ev, evaluate limit env expr = .ok ev ∧ ev.value = v := by
  obtain ⟨d, hvalid, hjudgment⟩ := h
  refine ⟨d.height, fun limit hlimit => ?_⟩
  obtain ⟨steps, hev⟩ := evaluate_eq_ok_iff.mpr ⟨hvalid, hjudgment, hlimit⟩
  exact ⟨_, hev, rfl⟩

/-! ## Errors -/

/-- An error other than the limit stays the same under every larger limit. -/
theorem evaluate_eq_error_of_le {n m : Nat} (hle : n ≤ m) {env : Env} {expr : Expr}
    {e : RuntimeError} (he : ∀ depth, e ≠ .recursionLimit depth)
    (h : evaluate n env expr = .error e) : evaluate m env expr = .error e := by
  rw [evaluate_eq_error_iff] at h ⊢
  cases Evaluation.cutOff_run hle env expr with
  | same hsame _ => rwa [← hsame]
  | cut hcut _ =>
    rw [h] at hcut
    exact absurd (Except.error.inj hcut) (he n)

/-- Where evaluation ends in an error other than the limit, no value is derivable. -/
theorem not_derivable_of_evaluate_eq_error {limit : Nat} {env : Env} {expr : Expr}
    {e : RuntimeError} (he : ∀ depth, e ≠ .recursionLimit depth)
    (h : evaluate limit env expr = .error e) (v : Value) :
    ¬ (Judgment.evalTo env expr v).Derivable := by
  intro hv
  obtain ⟨least, hleast⟩ := evaluate_of_derivable hv
  -- Under the larger of the two limits the evaluation would both fail and succeed.
  obtain ⟨ev, hok, -⟩ := hleast (max limit least) (Nat.le_max_right limit least)
  rw [evaluate_eq_error_of_le (Nat.le_max_left limit least) he h] at hok
  cases hok

/-- An unbound variable, a value of the wrong kind and an overflow are definitive: no derivation of
any height gives a value, so no limit makes the evaluation succeed, and every larger one gives the
same error. -/
theorem evaluate_error_definitive {limit : Nat} {env : Env} {expr : Expr} {e : RuntimeError}
    (he : ∀ depth, e ≠ .recursionLimit depth) (h : evaluate limit env expr = .error e) :
    (¬ ∃ (v : Value) (d : Derivation), d.Valid ∧ d.judgment = .evalTo env expr v) ∧
    (∀ m, limit ≤ m → evaluate m env expr = .error e) ∧
    ∀ m ev, evaluate m env expr ≠ .ok ev := by
  refine ⟨?_, fun m hm => evaluate_eq_error_of_le hm he h, fun m ev hev => ?_⟩
  · rintro ⟨v, hv⟩
    exact not_derivable_of_evaluate_eq_error he h v hv
  · exact not_derivable_of_evaluate_eq_error he h ev.value (derivable_of_evaluate hev)

/-- The program `true + (1 + 1)`: that its left operand is no integer is found only after the right
one has a value. -/
theorem evaluate_error_definitive_left_operand :
    evaluate 3 .empty (.binary .add (.bool true) (.binary .add (.int 1) (.int 1))) =
        .error (.expectedInteger (.bool true)) ∧
      ¬ ∃ (v : Value) (d : Derivation), d.Valid ∧
        d.judgment =
          .evalTo .empty (.binary .add (.bool true) (.binary .add (.int 1) (.int 1))) v := by
  have herror : evaluate 3 .empty (.binary .add (.bool true) (.binary .add (.int 1) (.int 1))) =
      .error (.expectedInteger (.bool true)) := by rfl
  have hkind (depth : Nat) : RuntimeError.expectedInteger (.bool true) ≠ .recursionLimit depth :=
    nofun
  exact ⟨herror, (evaluate_error_definitive hkind herror).1⟩

end BigStep
