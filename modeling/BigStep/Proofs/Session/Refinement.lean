import BigStep.Proofs.Goal.Readback
import BigStep.Session

/-!
# Sessions on text and in memory

A session that keeps only the text of its environment does what a session that keeps the
environment does, until a value is bound in which closures stand more than 200 deep. From then on
its text cannot be read.

* `bound?`, `boundValues`: what a step, and a session in memory, bind.
* `step_cases`: what one step does on both sides, from a text that is read as the environment.
* `stepText_of_unreadable`: a text that cannot be read is kept, and fails every step.
* `decode_after`, `decode_after_of_deep`: what the text is read as after any number of steps, by
  induction on them.
* `run_stepText_refines`: the results of whole sessions, each at its place (`getElem?_run`).
-/

namespace BigStep.Session

open Decode

/-- The value that a step binds, if it has one and a name for it. -/
def bound? (step : Step) (result : Except Error Evaluation) : Option Value :=
  match result, step.bind? with
  | .ok evaluation, some _ => some evaluation.value
  | _, _ => none

/-- The values that a session in memory binds, in order. -/
def boundValues (env : Env) : List Step → List Value
  | [] => []
  | step :: later =>
    let done := stepEnv env step
    (bound? step done.1).toList ++ boundValues done.2 later

/-! ## One step -/

/-- A goal with a text that is read as the environment is evaluated in that environment. -/
theorem derive_of_decode {text : String} {env : Env} (h : Env.decode text = .ok env) (limit : Nat)
    (source : String) : Goal.derive limit ⟨text, source⟩ = evaluateIn limit env source := by
  rw [Goal.derive, Goal.read, h, evaluateIn]
  cases Expr.parse source <;> rfl

/-- From a text that is read as the environment, a step gives the same on both sides. Either it
binds a well-formed value, or it leaves both as they are. -/
theorem step_cases {text : String} {env : Env} (h : Env.decode text = .ok env) (step : Step) :
    (∃ ev name, step.bind? = some name ∧ ev.value.WellFormed ∧
      stepText text step = (.ok ev, (env.extend name ev.value).text) ∧
      stepEnv env step = (.ok ev, env.extend name ev.value)) ∨
    ∃ result, bound? step result = none ∧ stepText text step = (result, text) ∧
      stepEnv env step = (result, env) := by
  have hderive := derive_of_decode h step.limit step.expr
  cases hresult : evaluateIn step.limit env step.expr with
  | error e =>
    rw [hresult] at hderive
    exact .inr ⟨.error e, rfl, by simp only [stepText, hderive], by simp only [stepEnv, hresult]⟩
  | ok ev =>
    rw [hresult] at hderive
    cases hbind : step.bind? with
    | none =>
      refine .inr ⟨.ok ev, by simp only [bound?, hbind], ?_, ?_⟩
      · simp only [stepText, hderive, hbind]
      · simp only [stepEnv, hresult, hbind]
    | some name =>
      refine .inl ⟨ev, name, rfl, Goal.wellFormed_of_derive hderive, ?_, ?_⟩
      · simp only [stepText, hderive, hbind, h]
      · simp only [stepEnv, hresult, hbind]

/-- A step that binds a value adds it to what the later steps bind. -/
theorem boundValues_of_bind {env env' : Env} {step : Step} {ev : Evaluation} {name : String}
    (hbind : step.bind? = some name) (h : stepEnv env step = (.ok ev, env')) (later : List Step) :
    boundValues env (step :: later) = ev.value :: boundValues env' later := by
  simp only [boundValues, h, bound?, hbind, Option.toList_some, List.singleton_append]

theorem boundValues_of_none {env env' : Env} {step : Step} {result : Except Error Evaluation}
    (hnone : bound? step result = none) (h : stepEnv env step = (result, env'))
    (later : List Step) : boundValues env (step :: later) = boundValues env' later := by
  rw [boundValues, h, hnone]
  rfl

section Extend

variable {text name : String} {env : Env} {v : Value} (h : Env.decode text = .ok env)
  (hname : IsIdentifier name) (hv : v.WellFormed)
include h hname hv

/-- An environment that was read, extended by a well-formed value, is read back from its text. -/
theorem decode_extend (hdepth : v.closureDepth ≤ 200) :
    Env.decode (env.extend name v).text = .ok (env.extend name v) := by
  obtain ⟨henv, hle⟩ := Env.wellFormed_of_decode h
  have hextend : (env.extend name v).WellFormed := ⟨henv, hname, hv⟩
  exact hextend.decode_text.trans (within_of_le (Nat.max_le.mpr ⟨hle, hdepth⟩) _)

/-- If closures stand too deep in the value, it is not. -/
theorem decode_extend_of_deep (hdepth : 200 < v.closureDepth) :
    Env.decode (env.extend name v).text = .error (.nestingTooDeep 200) := by
  obtain ⟨henv, -⟩ := Env.wellFormed_of_decode h
  have hextend : (env.extend name v).WellFormed := ⟨henv, hname, hv⟩
  exact hextend.decode_text.trans
    (within_of_lt (Nat.lt_of_lt_of_le hdepth (Nat.le_max_right _ _)) _)

end Extend

/-- A step from a text that cannot be read fails for that, and keeps the text. -/
theorem stepText_of_unreadable {text : String} {e : DecodeError} (h : Env.decode text = .error e)
    (step : Step) : stepText text step = (.error (.decode e), text) := by
  have hderive : Goal.derive step.limit ⟨text, step.expr⟩ = .error (.decode e) := by
    rw [Goal.derive, Goal.read, h]
    rfl
  simp only [stepText, hderive]

/-! ## Several steps -/

section After

variable {σ α : Type} (step : σ → Step → α × σ)

/-- The state that the steps leave. -/
def after : σ → List Step → σ
  | state, [] => state
  | state, s :: later => after (step state s).2 later

/-- Each step of a session starts from the state that the steps before it leave. -/
theorem getElem?_run (state : σ) (steps : List Step) (i : Nat) :
    (run step state steps)[i]? = steps[i]?.map (step (after step state (steps.take i))) := by
  induction steps generalizing state i with
  | nil => rfl
  | cons s later ih =>
    cases i with
    | zero => rfl
    | succ i => exact ih (step state s).2 i

theorem after_take_succ {state : σ} {steps : List Step} {i : Nat} {s : Step}
    (h : steps[i]? = some s) :
    after step state (steps.take (i + 1)) = (step (after step state (steps.take i)) s).2 := by
  induction steps generalizing state i with
  | nil => cases h
  | cons first later ih =>
    cases i with
    | zero =>
      cases h
      rfl
    | succ i => exact ih h

end After

theorem after_stepText_of_unreadable {text : String} {e : DecodeError}
    (h : Env.decode text = .error e) (steps : List Step) : after stepText text steps = text := by
  induction steps with
  | nil => rfl
  | cons step later ih => rw [after, stepText_of_unreadable h, ih]

section Names

variable {steps : List Step} (hnames : ∀ step ∈ steps, ∀ name ∈ step.bind?, IsIdentifier name)
include hnames

/-- If closures stand nowhere too deep in what is bound, the text that the steps leave is read as
the environment that they leave. -/
theorem decode_after {text : String} {env : Env} (h : Env.decode text = .ok env)
    (hdepth : ∀ v ∈ boundValues env steps, v.closureDepth ≤ 200) :
    Env.decode (after stepText text steps) = .ok (after stepEnv env steps) := by
  induction steps generalizing text env with
  | nil => exact h
  | cons step later ih =>
    obtain ⟨hname, hlater⟩ := List.forall_mem_cons.mp hnames
    rw [after, after]
    rcases step_cases h step with ⟨ev, name, hbind, hv, htext, henv⟩ | ⟨result, hnone, htext, henv⟩
    · rw [boundValues_of_bind hbind henv, List.forall_mem_cons] at hdepth
      rw [htext, henv]
      exact ih hlater (decode_extend h (hname name hbind) hv hdepth.1) hdepth.2
    · rw [boundValues_of_none hnone henv] at hdepth
      rw [htext, henv]
      exact ih hlater h hdepth

/-- If closures stand too deep in something that is bound, the text that the steps leave cannot be
read. -/
theorem decode_after_of_deep {text : String} {env : Env} (h : Env.decode text = .ok env)
    (hdeep : ∃ v ∈ boundValues env steps, 200 < v.closureDepth) :
    Env.decode (after stepText text steps) = .error (.nestingTooDeep 200) := by
  induction steps generalizing text env with
  | nil => simp [boundValues] at hdeep
  | cons step later ih =>
    obtain ⟨hname, hlater⟩ := List.forall_mem_cons.mp hnames
    rw [after]
    rcases step_cases h step with ⟨ev, name, hbind, hv, htext, henv⟩ | ⟨result, hnone, htext, henv⟩
    · simp only [boundValues_of_bind hbind henv, List.mem_cons, exists_eq_or_imp] at hdeep
      rw [htext]
      -- If this value stands too deep, later ones do not matter, since no later step succeeds.
      by_cases hdepth : 200 < ev.value.closureDepth
      · have hread := decode_extend_of_deep h (hname name hbind) hv hdepth
        rw [after_stepText_of_unreadable hread, hread]
      · have hread := decode_extend h (hname name hbind) hv (Nat.le_of_not_lt hdepth)
        exact ih hlater hread (hdeep.resolve_left hdepth)
    · rw [boundValues_of_none hnone henv] at hdeep
      rw [htext]
      exact ih hlater h hdeep

end Names

/-- From a text that is read as the environment, with identifiers for names: as long as closures
stand at most 200 deep in every value that is bound, each step of the session on text gives the same
evaluation or the same error as that of the session in memory, and the text that it leaves is read
as the environment there. Once a value is bound in which they stand deeper, every later step of the
session on text fails because of that. -/
theorem run_stepText_refines {text : String} {env : Env} (h : Env.decode text = .ok env)
    {steps : List Step} (hnames : ∀ step ∈ steps, ∀ name ∈ step.bind?, IsIdentifier name)
    (i : Nat) :
    ((∀ v ∈ boundValues env (steps.take i), v.closureDepth ≤ 200) →
      (run stepText text steps)[i]?.map (·.1) = (run stepEnv env steps)[i]?.map (·.1)) ∧
    ((∀ v ∈ boundValues env (steps.take (i + 1)), v.closureDepth ≤ 200) →
      (run stepText text steps)[i]?.map (Env.decode ·.2) =
        (run stepEnv env steps)[i]?.map (.ok ·.2)) ∧
    ((∃ v ∈ boundValues env (steps.take i), 200 < v.closureDepth) →
      ∀ done ∈ (run stepText text steps)[i]?, done.1 = .error (.decode (.nestingTooDeep 200))) := by
  have htake (j : Nat) : ∀ step ∈ steps.take j, ∀ name ∈ step.bind?, IsIdentifier name :=
    fun step hstep => hnames step (List.mem_of_mem_take hstep)
  rw [getElem?_run, getElem?_run]
  cases hi : steps[i]? with
  | none => simp
  | some step =>
    refine ⟨fun hdepth => ?_, fun hdepth => ?_, fun hdeep => ?_⟩
    · have hread := decode_after (htake i) h hdepth
      rcases step_cases hread step with ⟨_, _, -, -, htext, henv⟩ | ⟨_, -, htext, henv⟩
      · simp only [Option.map_some, htext, henv]
      · simp only [Option.map_some, htext, henv]
    · have hread := decode_after (htake (i + 1)) h hdepth
      rw [after_take_succ stepText hi, after_take_succ stepEnv hi] at hread
      simp only [Option.map_some, hread]
    · have hread := decode_after_of_deep (htake i) h hdeep
      rintro done ⟨⟩
      rw [stepText_of_unreadable hread]

/-- A function is bound, then a value in which closures stand 216 deep, and then the function is
called. -/
def towerSession : List Step :=
  [⟨"fun x -> x + 1", some "f", 10⟩, ⟨Goal.towerSource, some "v", 128⟩, ⟨"f 1", none, 10⟩]

/-- The session on text keeps up with the session in memory until the tower is bound, and cannot
call the function after that. -/
theorem run_stepText_refines_tower :
    (run stepText "" towerSession)[1]?.map (·.1) = (run stepEnv .empty towerSession)[1]?.map (·.1) ∧
    (∀ done ∈ (run stepText "" towerSession)[2]?,
      done.1 = .error (.decode (.nestingTooDeep 200))) ∧
    (run stepEnv .empty towerSession)[2]?.bind (·.1.toOption.map (·.value)) = some (.int 2) := by
  have hempty : Env.decode "" = .ok .empty := rfl
  have hnames : ∀ step ∈ towerSession, ∀ name ∈ step.bind?, IsIdentifier name := by
    decide +kernel
  refine ⟨(run_stepText_refines hempty hnames 1).1 ?_,
    (run_stepText_refines hempty hnames 2).2.2 ?_, ?_⟩
  · decide +kernel
  · decide +kernel
  · decide +kernel

end BigStep.Session
