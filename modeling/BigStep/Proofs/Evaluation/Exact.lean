import BigStep.Proofs.Evaluation.Limit
import BigStep.Proofs.Evaluation.Parametricity

/-!
# Evaluation over unbounded integers

The language computes with integers of 64 bits and refuses every result that is out of range. Set
beside an evaluator that computes with all integers and never refuses, it does the same up to the
first such result, and stops there.

* `Arithmetic.exact`, `evaluateExact`: evaluation in which every operation has its exact result.
* `Event.overflows`: the operation that the event tells of has an exact result out of range.
* `Tracks r s`: `r` is the same run as `s`, and nothing in it overflows; or `r` ends in the error
  for the first operation of `s` that does. One lemma for each way to build a run.
* `tracks_run`: the run of the language tracks the run over unbounded integers.
* `evaluate_eq_exact_unless_overflow`: the same for whole evaluations.
-/

namespace BigStep

/-- Arithmetic on all integers: every operation has its exact result. -/
def Arithmetic.exact : Arithmetic := fun op m n => .ok (op.exact m n)

/-- The run over unbounded integers, with at most `limit` nested rule applications. -/
def Evaluation.exactRun (limit : Nat) (env : Env) (expr : Expr) : Run Derived :=
  evalWith Arithmetic.exact limit limit env expr

/-- Evaluates over unbounded integers, with at most `limit` nested rule applications. -/
def evaluateExact (limit : Nat) (env : Env) (expr : Expr) : Except RuntimeError Evaluation :=
  let run := Evaluation.exactRun limit env expr
  run.outcome.map fun d => ⟨d.value, d.derivation, run.steps⟩

/-! ## Operations out of range -/

/-- The exact result is a truth value or an integer in range. -/
def Operator.fits (op : Operator) (m n : Int) : Bool :=
  match op.exact m n with
  | .int r => Integer.InRange r
  | _ => true

/-- The event is an operation whose exact result is out of range. -/
def Event.overflows : Event → Bool
  | compute op m n => !op.fits m n
  | _ => false

theorem Operator.apply_of_fits {op : Operator} {m n : Int} (h : op.fits m n = true) :
    op.apply m n = .ok (op.exact m n) := by
  unfold fits at h
  unfold apply
  cases hexact : op.exact m n <;> simp_all

theorem Operator.apply_of_not_fits {op : Operator} {m n : Int} (h : op.fits m n = false) :
    op.apply m n = .error (.overflow m op n) := by
  unfold fits at h
  unfold apply
  cases hexact : op.exact m n <;> simp_all

/-! ## Runs that track -/

/-- The run `r` is `s`, in which nothing overflows; or it ends in the error for the first operation
of `s` that does. -/
inductive Tracks {α : Type} (r s : Run α) : Prop
  | same (h : r = s) (hfits : s.events.find? Event.overflows = none)
      (hoverflow : ∀ m op n, r.outcome ≠ .error (.overflow m op n))
  | overflow {m n : Int} {op : Operator} (h : r.outcome = .error (.overflow m op n))
      (hfirst : s.events.find? Event.overflows = some (.compute op m n))

namespace Tracks

variable {α β : Type}

/-- The first overflow of a run is that of its first part, if there is one. -/
theorem find?_bind {s : Run α} {event : Event} (h : s.events.find? Event.overflows = some event)
    (g : α → Run β) : (s >>= g).events.find? Event.overflows = some event := by
  cases ho : s.outcome with
  | error e => rw [Run.events_bind_error ho, h]
  | ok a => rw [Run.events_bind_ok ho, List.find?_append, h]; rfl

theorem bind {r s : Run α} {f g : α → Run β} (hr : Tracks r s) (hf : ∀ a, Tracks (f a) (g a)) :
    Tracks (r >>= f) (s >>= g) := by
  cases hr with
  | overflow h hfirst => exact .overflow (Run.outcome_bind_error h f) (find?_bind hfirst g)
  | same h hfits hoverflow =>
    subst h
    cases ho : r.outcome with
    | error e =>
      refine .same (by simp [Bind.bind, Run.bind, ho]) ?_ fun m op n => ?_
      · rw [Run.events_bind_error ho, hfits]
      · rw [Run.outcome_bind_error ho]
        rw [ho] at hoverflow
        -- The two errors differ only in the type of the result that is missing.
        exact fun heq => hoverflow m op n (congrArg Except.error (Except.error.inj heq))
    | ok a =>
      cases hf a with
      | same h hfits' hoverflow =>
        refine .same (by simp [Bind.bind, Run.bind, ho, h]) ?_ fun m op n => ?_
        · rw [Run.events_bind_ok ho, List.find?_append, hfits, hfits']
          rfl
        · rw [Run.outcome_bind_ok ho]
          exact hoverflow m op n
      | overflow h hfirst =>
        refine .overflow ((Run.outcome_bind_ok ho f).trans h) ?_
        rw [Run.events_bind_ok ho, List.find?_append, hfits, hfirst]
        rfl

theorem within {r s : Run α} (h : Tracks r s) (env : Env) (expr : Expr) :
    Tracks (.within env expr r) (.within env expr s) := by
  have hinside : (Run.within env expr s).events.find? Event.overflows =
      s.events.find? Event.overflows := by
    rw [Run.events_within, List.cons_append, List.find?_cons_of_neg Bool.false_ne_true,
      List.find?_append]
    exact Option.or_none
  cases h with
  | same h hfits hoverflow => exact .same (h ▸ rfl) (hinside.trans hfits) hoverflow
  | overflow h hfirst => exact .overflow h (hinside.trans hfirst)

/-- A run with nothing to compute tracks itself. -/
theorem refl {r : Run α} (hfits : r.events.find? Event.overflows = none)
    (hoverflow : ∀ m op n, r.outcome ≠ .error (.overflow m op n)) : Tracks r r :=
  .same rfl hfits hoverflow

theorem fail {e : RuntimeError} (h : ∀ m op n, e ≠ .overflow m op n) :
    Tracks (Run.fail e : Run α) (.fail e) :=
  refl rfl fun m op n heq => h m op n (Except.error.inj heq)

/-- This is where the two evaluators differ: an operation out of range is refused by one of them. -/
theorem compute (op : Operator) (m n : Int) :
    Tracks (Evaluation.compute Operator.apply op m n)
      (Evaluation.compute Arithmetic.exact op m n) := by
  cases hfits : op.fits m n with
  | true =>
    have happly := Operator.apply_of_fits hfits
    refine .same ?_ ?_ ?_
    · rw [Evaluation.compute, Evaluation.compute, happly]
      rfl
    · simp [Evaluation.compute, Run.events, Event.overflows, hfits]
    · intro m' op' n' heq
      rw [Evaluation.compute, happly] at heq
      cases heq
  | false =>
    refine .overflow (Operator.apply_of_not_fits hfits) ?_
    simp [Evaluation.compute, Run.events, Event.overflows, hfits]

end Tracks

/-- Tracking is kept by every way to build a run. -/
def tracking : RunRelation Operator.apply Arithmetic.exact where
  Rel := Tracks
  pure _ := .refl rfl nofun
  fail _ _ hoverflow := .fail hoverflow
  call _ _ := .refl rfl nofun
  compute := Tracks.compute
  bind := Tracks.bind
  within := Tracks.within

/-- The run of the language is the run over unbounded integers, up to the first overflow. -/
theorem tracks_run (limit : Nat) (env : Env) (expr : Expr) :
    Tracks (Evaluation.run limit env expr) (Evaluation.exactRun limit env expr) :=
  tracking.evalWith (.fail nofun) limit env expr

/-- Unless it overflows, an evaluation gives the same value, derivation and number of rule
applications, or the same error, as over unbounded integers. It overflows just if the run over
unbounded integers carries out an operation with a result out of range, before whatever it ends in,
and the error names the first such operation. -/
theorem evaluate_eq_exact_unless_overflow (limit : Nat) (env : Env) (expr : Expr) :
    ((∀ m op n, evaluate limit env expr ≠ .error (.overflow m op n)) →
      evaluate limit env expr = evaluateExact limit env expr) ∧
    ∀ m op n, evaluate limit env expr = .error (.overflow m op n) ↔
      (Evaluation.exactRun limit env expr).events.find? Event.overflows =
        some (.compute op m n) := by
  simp only [ne_eq, evaluate_eq_error_iff]
  cases tracks_run limit env expr with
  | same h hfits hoverflow =>
    refine ⟨fun _ => ?_, fun m op n => ⟨fun heq => absurd heq (hoverflow m op n), fun heq => ?_⟩⟩
    · rw [evaluate, evaluateExact, h]
    · rw [hfits] at heq
      cases heq
  | overflow h hfirst =>
    refine ⟨fun hno => absurd h (hno _ _ _), fun m op n => ?_⟩
    rw [h, hfirst]
    simp only [Except.error.injEq, RuntimeError.overflow.injEq, Option.some.injEq,
      Event.compute.injEq]
    exact and_left_comm

/-- The program `2^63 - 1 + 1 - 1`, which passes the greatest integer on its way to it. -/
def pastGreatest : Expr :=
  .binary .sub (.binary .add (.int Integer.greatest) (.int 1)) (.int 1)

/-- The program `2^63 - 1 - 1 + 1`, which comes up to the greatest integer. -/
def upToGreatest : Expr :=
  .binary .add (.binary .sub (.int Integer.greatest) (.int 1)) (.int 1)

/-- One step past the greatest integer is refused, though the way leads back; up to it nothing
is. -/
theorem evaluate_eq_exact_unless_overflow_greatest :
    evaluate 3 .empty pastGreatest = .error (.overflow Integer.greatest .add 1) ∧
      (evaluateExact 3 .empty pastGreatest).map (·.value) = .ok (.int Integer.greatest) ∧
      evaluate 3 .empty upToGreatest = evaluateExact 3 .empty upToGreatest ∧
      (evaluate 3 .empty upToGreatest).map (·.value) = .ok (.int Integer.greatest) := by
  obtain ⟨ev, hev⟩ : ∃ ev, evaluate 3 .empty upToGreatest = .ok ev := ⟨_, rfl⟩
  have hno (m : Int) (op : Operator) (n : Int) :
      evaluate 3 .empty upToGreatest ≠ .error (.overflow m op n) := by
    rw [hev]
    nofun
  exact ⟨((evaluate_eq_exact_unless_overflow 3 .empty pastGreatest).2 _ _ _).mpr rfl, rfl,
    (evaluate_eq_exact_unless_overflow 3 .empty upToGreatest).1 hno, rfl⟩

end BigStep
