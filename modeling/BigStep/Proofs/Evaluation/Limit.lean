import BigStep.Proofs.Evaluation.Parametricity

/-!
# The limit as a cut-off

A run with a smaller limit does what the run with the larger one does, up to the place where it is
cut off, if there is one.

* `Run.goals`: the judgments at which a rule application begins, in order. These are the ones that
  pass the check of the limit.
* `CutOff limit r s`: `r` is the same run as `s` and does not end at a limit, or it ends at this
  limit and has begun only what `s` begins too. One lemma for each way to build a run.
* `cutOff_step`: a rule application is cut off where its premises are.
* `cutOff_evalWith`: by induction on the room.
* `evaluate_cut_off`: the same for whole evaluations under two limits.
-/

namespace BigStep

/-- The judgment at which a rule application begins. -/
def Event.goal? : Event → Option (Env × Expr)
  | enter env expr => some (env, expr)
  | _ => none

namespace Run

variable {α β : Type}

/-- The judgments at which a rule application begins, in order. -/
def goals (r : Run α) : List (Env × Expr) := r.events.filterMap Event.goal?

@[simp] theorem goals_within (env : Env) (expr : Expr) (r : Run α) :
    (within env expr r).goals = (env, expr) :: r.goals := by
  simp [goals, Event.goal?]

theorem goals_bind_ok {r : Run α} {a : α} (h : r.outcome = .ok a) (f : α → Run β) :
    (r >>= f).goals = r.goals ++ (f a).goals := by
  simp [goals, events_bind_ok h]

theorem goals_bind_error {r : Run α} {e : RuntimeError} (h : r.outcome = .error e)
    (f : α → Run β) : (r >>= f).goals = r.goals := by
  simp [goals, events_bind_error h]

/-- A run begins at least what its first part begins. -/
theorem goals_prefix_bind (r : Run α) (f : α → Run β) : r.goals <+: (r >>= f).goals := by
  cases h : r.outcome with
  | error e => exact goals_bind_error h f ▸ List.prefix_rfl
  | ok a =>
    rw [goals_bind_ok h]
    exact List.prefix_append _ _

theorem outcome_bind_ok {r : Run α} {a : α} (h : r.outcome = .ok a) (f : α → Run β) :
    (r >>= f).outcome = (f a).outcome := by
  simp [bind, Run.bind, h]

theorem outcome_bind_error {r : Run α} {e : RuntimeError} (h : r.outcome = .error e)
    (f : α → Run β) : (r >>= f).outcome = .error e := by
  simp [bind, Run.bind, h]

end Run

/-- The run `r` is `s` up to where the limit cuts it off: either it is not cut off and they are the
same, or it ends at the limit and has begun a first part of what `s` begins. -/
inductive CutOff {α : Type} (limit : Nat) (r s : Run α) : Prop
  | same (h : r = s) (hlimit : ∀ depth, r.outcome ≠ .error (.recursionLimit depth))
  | cut (h : r.outcome = .error (.recursionLimit limit)) (hgoals : r.goals <+: s.goals)

namespace CutOff

variable {α β : Type} {limit : Nat}

/-- A run that does not end at a limit is not cut off. -/
theorem refl {r : Run α} (h : ∀ depth, r.outcome ≠ .error (.recursionLimit depth)) :
    CutOff limit r r := .same rfl h

theorem pure (a : α) : CutOff limit (pure a : Run α) (Pure.pure a) := refl nofun

theorem fail {e : RuntimeError} (h : ∀ depth, e ≠ .recursionLimit depth) :
    CutOff limit (Run.fail e : Run α) (.fail e) :=
  refl fun depth heq => h depth (Except.error.inj heq)

theorem bind {r s : Run α} {f g : α → Run β} (hr : CutOff limit r s)
    (hf : ∀ a, CutOff limit (f a) (g a)) : CutOff limit (r >>= f) (s >>= g) := by
  cases hr with
  | cut h hgoals =>
    refine .cut (Run.outcome_bind_error h f) ?_
    rw [Run.goals_bind_error h]
    exact hgoals.trans (Run.goals_prefix_bind s g)
  | same h hlimit =>
    subst h
    cases ho : r.outcome with
    | error e =>
      have hbind : (r >>= f) = (r >>= g) := by simp [Bind.bind, Run.bind, ho]
      refine .same hbind fun depth => ?_
      rw [Run.outcome_bind_error ho]
      rw [ho] at hlimit
      -- The two errors differ only in the type of the result that is missing.
      exact fun heq => hlimit depth (congrArg Except.error (Except.error.inj heq))
    | ok a =>
      cases hf a with
      | same h hlimit =>
        have hbind : (r >>= f) = (r >>= g) := by simp [Bind.bind, Run.bind, ho, h]
        refine .same hbind fun depth => ?_
        rw [Run.outcome_bind_ok ho]
        exact hlimit depth
      | cut h hgoals =>
        refine .cut ((Run.outcome_bind_ok ho f).trans h) ?_
        rw [Run.goals_bind_ok ho, Run.goals_bind_ok ho]
        exact (List.prefix_append_right_inj _).mpr hgoals

theorem within {r s : Run α} (h : CutOff limit r s) (env : Env) (expr : Expr) :
    CutOff limit (.within env expr r) (.within env expr s) := by
  cases h with
  | same h hlimit => exact .same (h ▸ rfl) hlimit
  | cut h hgoals =>
    refine .cut h ?_
    rw [Run.goals_within, Run.goals_within]
    exact (List.prefix_cons_inj _).mpr hgoals

end CutOff

namespace Evaluation

theorem apply_ne_recursionLimit (op : Operator) (m n : Int) (depth : Nat) :
    op.apply m n ≠ .error (.recursionLimit depth) := by
  unfold Operator.apply
  split
  · split <;> nofun
  · nofun

/-- Being cut off is kept by every way to build a run. -/
def cuttingOff (limit : Nat) : RunRelation Operator.apply Operator.apply where
  Rel := CutOff limit
  pure a := .pure a
  fail _ hlimit _ := .fail hlimit
  call _ _ := .refl nofun
  compute op m n := .refl (apply_ne_recursionLimit op m n)
  bind := CutOff.bind
  within := CutOff.within

/-- A rule application is cut off where its premises are. -/
theorem cutOff_step {limit : Nat} {eval eval' : Env → Expr → Run Derived}
    (heval : ∀ env expr, CutOff limit (eval env expr) (eval' env expr)) (env : Env) (expr : Expr) :
    CutOff limit (step Operator.apply eval env expr) (step Operator.apply eval' env expr) :=
  (cuttingOff limit).step heval env expr

/-- With less room a run is cut off where it uses up its room. -/
theorem cutOff_evalWith (limit larger : Nat) {room more : Nat} (h : room ≤ more) (env : Env)
    (expr : Expr) :
    CutOff limit (evalWith Operator.apply limit room env expr)
      (evalWith Operator.apply larger more env expr) := by
  induction room generalizing more env expr with
  | zero => exact .cut rfl List.nil_prefix
  | succ room ih =>
    obtain ⟨more, rfl⟩ : ∃ k, more = k + 1 := ⟨more - 1, by omega⟩
    exact (cutOff_step (fun env expr => ih (by omega) env expr) env expr).within env expr

/-- With a smaller limit a run is cut off there, or it is the same. -/
theorem cutOff_run {limit larger : Nat} (h : limit ≤ larger) (env : Env) (expr : Expr) :
    CutOff limit (run limit env expr) (run larger env expr) :=
  cutOff_evalWith limit larger h env expr

end Evaluation

theorem evaluate_eq_error_iff {limit : Nat} {env : Env} {expr : Expr} {e : RuntimeError} :
    evaluate limit env expr = .error e ↔ (Evaluation.run limit env expr).outcome = .error e := by
  rw [evaluate]
  cases (Evaluation.run limit env expr).outcome <;> simp [Except.map]

/-- Under a smaller limit an evaluation gives the same value, derivation and number of rule
applications, or the same error, unless it ends at the limit; and the rule applications that it
begins are the first of those begun under the larger limit. So an evaluation that ends at its limit
ends at every smaller one. -/
theorem evaluate_cut_off (env : Env) (expr : Expr) {n m : Nat} (h : n ≤ m) :
    (evaluate n env expr = evaluate m env expr ∨
      evaluate n env expr = .error (.recursionLimit n)) ∧
    (Evaluation.run n env expr).goals <+: (Evaluation.run m env expr).goals ∧
    (evaluate m env expr = .error (.recursionLimit m) →
      evaluate n env expr = .error (.recursionLimit n)) := by
  rw [evaluate_eq_error_iff, evaluate_eq_error_iff]
  cases Evaluation.cutOff_run h env expr with
  | cut hcut hgoals => exact ⟨.inr hcut, hgoals, fun _ => hcut⟩
  | same hsame hlimit =>
    rw [hsame] at hlimit
    refine ⟨.inl ?_, ?_, fun hm => absurd hm (hlimit m)⟩
    · rw [evaluate, evaluate, hsame]
    · exact hsame ▸ List.prefix_rfl

/-- The program `let rec f = fun x -> f x in f 0`, which has no value. -/
def endless : Expr := .letRec "f" "x" (.app (.var "f") (.var "x")) (.app (.var "f") (.int 0))

/-- A program that never ends is cut off at six rule applications, and so at five, where it has
begun less. -/
theorem evaluate_cut_off_endless :
    evaluate 6 .empty endless = .error (.recursionLimit 6) ∧
      evaluate 5 .empty endless = .error (.recursionLimit 5) ∧
      (Evaluation.run 5 .empty endless).goals <+: (Evaluation.run 6 .empty endless).goals ∧
      (Evaluation.run 5 .empty endless).goals.length = 10 ∧
      (Evaluation.run 6 .empty endless).goals.length = 14 := by
  have hsix : evaluate 6 .empty endless = .error (.recursionLimit 6) := by rfl
  obtain ⟨-, hgoals, hlimit⟩ := evaluate_cut_off .empty endless (show 5 ≤ 6 by decide)
  exact ⟨hsix, hlimit hsix, hgoals, by decide, by decide⟩

end BigStep
