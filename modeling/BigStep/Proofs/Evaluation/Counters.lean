import BigStep.Proofs.Evaluation.Context

/-!
# Counting on a shared context

`Evaluation.evalWith` hands each premise the room that is left for it, and a context learns
afterwards what happened. Evaluation can also count as it goes: every rule application looks at a
context that all of them share, counts itself there, evaluates its premises on it one after the
other, and takes itself off again, whatever it ends in.

* `Counted`: computations on a shared context. What an evaluation has done to it before an error
  stays done.
* `Counted.applied`: one rule application around a computation: refused at the limit, counted
  otherwise, and closed on every path.
* `Counted.rule`: the rules, where the evaluation of the premises is a parameter.
* `Counted.Solves`: evaluation is one rule application around the rules, with itself for the
  premises.
* `Counted.Follows`: a computation does to every context with so much room what the events of a run
  say. One lemma for each way to build a run.
* `Context.solves_iff`: `Context.eval` is the one evaluation that counts in this way.
-/

namespace BigStep

open Evaluation

/-- A computation on a context that all of its parts share. -/
@[ext]
structure Counted (α : Type) where
  run : Context → Except RuntimeError α × Context

namespace Counted

variable {α β : Type}

/-- A result that leaves the context alone. -/
protected def pure (a : α) : Counted α := ⟨fun c => (.ok a, c)⟩

/-- One computation after the other, on the context as the first one leaves it. An error ends
both. -/
protected def bind (m : Counted α) (f : α → Counted β) : Counted β where
  run c :=
    match m.run c with
    | (.ok a, later) => (f a).run later
    | (.error e, later) => (.error e, later)

instance : Monad Counted where
  pure := Counted.pure
  bind := Counted.bind

/-- An outcome that leaves the context alone. -/
def lift (outcome : Except RuntimeError α) : Counted α := ⟨fun c => (outcome, c)⟩

/-- One rule application around a computation. -/
def applied (m : Counted α) : Counted α where
  run c :=
    if c.limit ≤ c.depth then (.error (.recursionLimit c.limit), c)
    else
      let (outcome, later) := m.run { c with depth := c.depth + 1, steps := c.steps + 1 }
      (outcome, { later with depth := later.depth - 1 })

/-- The integer that an operand has to be. -/
def integer (value : Value) : Counted Int :=
  match value with
  | .int n => pure n
  | _ => lift (.error (.expectedInteger value))

/-- The rules, where `eval` evaluates the premises. -/
def rule (eval : Env → Expr → Counted Derived) (env : Env) (expr : Expr) : Counted Derived :=
  match expr with
  | .int n => pure (conclude env expr .int [] (.int n))
  | .bool b => pure (conclude env expr .bool [] (.bool b))
  | .var name =>
    match env with
    | .empty => lift (.error (.unboundVariable name))
    | .extend rest bound value =>
      if bound = name then pure (conclude env expr .var1 [] value)
      else do
        let older ← eval rest expr
        pure (conclude env expr .var2 [older.derivation] older.value)
  | .binary op left right => do
    let l ← eval env left
    let r ← eval env right
    let m ← integer l.value
    let n ← integer r.value
    let result ← lift (op.apply m n)
    let premises := [l.derivation, r.derivation, primitiveLeaf op m n result]
    pure (conclude env expr (.operation op) premises result)
  | .cond condition thenBranch elseBranch => do
    let c ← eval env condition
    match c.value with
    | .bool true =>
      let t ← eval env thenBranch
      pure (conclude env expr .condTrue [c.derivation, t.derivation] t.value)
    | .bool false =>
      let e ← eval env elseBranch
      pure (conclude env expr .condFalse [c.derivation, e.derivation] e.value)
    | value => lift (.error (.expectedBoolean value))
  | .letIn name value body => do
    let v ← eval env value
    let b ← eval (env.extend name v.value) body
    pure (conclude env expr .letIn [v.derivation, b.derivation] b.value)
  | .letRec name param functionBody body => do
    let b ← eval (env.extend name (.closure env ⟨some name, param, functionBody⟩)) body
    pure (conclude env expr .letRec [b.derivation] b.value)
  | .func param body => pure (conclude env expr .func [] (.closure env ⟨none, param, body⟩))
  | .app function argument => do
    let f ← eval env function
    match f.value with
    | .closure captured code =>
      let a ← eval env argument
      let b ← eval (callEnv captured code a.value) code.body
      pure (conclude env expr (callRule code) [f.derivation, a.derivation, b.derivation] b.value)
    | value => lift (.error (.notAClosure value))

/-- Evaluation is a rule application around the rules, with itself for the premises. -/
def Solves (eval : Env → Expr → Counted Derived) : Prop :=
  ∀ env expr, eval env expr = applied (rule eval env expr)

theorem run_bind_of_ok {m : Counted α} {c later : Context} {a : α} (h : m.run c = (.ok a, later))
    (f : α → Counted β) : (m >>= f).run c = (f a).run later := by
  simp only [bind, Counted.bind, h]

theorem run_bind_of_error {m : Counted α} {c later : Context} {e : RuntimeError}
    (h : m.run c = (.error e, later)) (f : α → Counted β) :
    (m >>= f).run c = (.error e, later) := by
  simp only [bind, Counted.bind, h]

theorem run_applied_of_le {m : Counted α} {c : Context} (h : c.limit ≤ c.depth) :
    m.applied.run c = (.error (.recursionLimit c.limit), c) := if_pos h

theorem run_applied_of_lt {m : Counted α} {c later : Context} {outcome : Except RuntimeError α}
    (h : c.depth < c.limit)
    (hm : m.run { c with depth := c.depth + 1, steps := c.steps + 1 } = (outcome, later)) :
    m.applied.run c = (outcome, { later with depth := later.depth - 1 }) := by
  simp only [applied, if_neg (Nat.not_le_of_lt h), hm]

/-! ## Computations beside runs -/

/-- From every context with this limit and this much room on, the computation has the outcome of the
run, and leaves the context that the events of the run lead to. The run closes what it opens, so the
room is the same behind it. -/
structure Follows (limit room : Nat) (m : Counted α) (r : Run α) : Prop where
  settled : r.Settled
  counts : ∀ c : Context, c.limit = limit → c.limit - c.depth = room →
    m.run c = (r.outcome, r.events.foldl Context.observe c)

namespace Follows

variable {limit room : Nat}

theorem lift (outcome : Except RuntimeError α) :
    Follows limit room (Counted.lift outcome) ⟨.nil, outcome⟩ :=
  ⟨.of_no_events rfl, fun _ _ _ => rfl⟩

theorem pure (a : α) : Follows limit room (Pure.pure a : Counted α) (Pure.pure a) := lift (.ok a)

theorem fail (e : RuntimeError) :
    Follows limit room (Counted.lift (.error e) : Counted α) (Run.fail e) := lift (.error e)

theorem compute (op : Operator) (m n : Int) :
    Follows limit room (Counted.lift (op.apply m n)) (compute Operator.apply op m n) :=
  ⟨fun _ => rfl, fun _ _ _ => rfl⟩

theorem bind {m : Counted α} {r : Run α} {f : α → Counted β} {g : α → Run β}
    (hr : Follows limit room m r) (hf : ∀ a, Follows limit room (f a) (g a)) :
    Follows limit room (m >>= f) (r >>= g) := by
  refine ⟨hr.settled.bind fun a => (hf a).settled, fun c hlimit hroom => ?_⟩
  have hfirst := hr.counts c hlimit hroom
  cases hout : r.outcome with
  | error e =>
    rw [hout] at hfirst
    rw [run_bind_of_error hfirst f, Run.events_bind_error hout]
    simp [Bind.bind, Run.bind, hout]
  | ok a =>
    have hnext := (hf a).counts { c with steps := c.steps + r.steps } hlimit hroom
    rw [hout] at hfirst
    rw [run_bind_of_ok hfirst f, Run.events_bind_ok hout, List.foldl_append, hr.settled c, hnext]
    simp [Bind.bind, Run.bind, hout]

/-- Reporting a call counts nothing. -/
theorem after_reportCall {m : Counted α} {r : Run α} (h : Follows limit room m r) (code : Code)
    (argument : Value) : Follows limit room m (reportCall code argument >>= fun _ => r) := by
  have hreport : Follows limit room (Pure.pure () : Counted Unit) (reportCall code argument) := by
    unfold reportCall
    split
    · exact pure ()
    · exact ⟨fun _ => rfl, fun _ _ _ => rfl⟩
  exact hreport.bind fun _ => h

theorem integer (v : Value) :
    Follows limit room (Counted.integer v) (Evaluation.integer v) := by
  cases v with
  | int n => exact pure n
  | bool b => exact fail _
  | closure env code => exact fail _

/-- The rules follow a rule application if the evaluations of the premises do. -/
theorem rule {eval : Env → Expr → Counted Derived} {eval' : Env → Expr → Run Derived}
    (heval : ∀ env expr, Follows limit room (eval env expr) (eval' env expr)) (env : Env)
    (expr : Expr) :
    Follows limit room (Counted.rule eval env expr) (step Operator.apply eval' env expr) := by
  cases expr with
  | int n => exact pure _
  | bool b => exact pure _
  | func param body => exact pure _
  | var name =>
    cases env with
    | empty => exact fail _
    | extend rest bound value =>
      simp only [Counted.rule, step]
      split
      · exact pure _
      · exact (heval _ _).bind fun _ => pure _
  | binary op left right =>
    exact (heval _ _).bind fun l => (heval _ _).bind fun r => (integer _).bind fun m =>
      (integer _).bind fun n => (compute op m n).bind fun _ => pure _
  | cond condition thenBranch elseBranch =>
    refine (heval _ _).bind fun c => ?_
    obtain ⟨value, derivation⟩ := c
    rcases value with n | (_ | _) | ⟨captured, code⟩
    · exact fail _
    · exact (heval _ _).bind fun _ => pure _
    · exact (heval _ _).bind fun _ => pure _
    · exact fail _
  | letIn name value body => exact (heval _ _).bind fun _ => (heval _ _).bind fun _ => pure _
  | letRec name param functionBody body => exact (heval _ _).bind fun _ => pure _
  | app function argument =>
    refine (heval _ _).bind fun f => ?_
    obtain ⟨value, derivation⟩ := f
    cases value with
    | int n => exact fail _
    | bool b => exact fail _
    | closure captured code =>
      refine (heval _ _).bind fun a => after_reportCall ?_ code a.value
      exact (heval _ _).bind fun _ => pure _

/-- Without room a rule application is refused, and nothing is counted. -/
theorem refused (m : Counted α) :
    Follows limit 0 (applied m) (Run.fail (.recursionLimit limit)) := by
  refine ⟨.fail _, fun c hlimit hroom => ?_⟩
  rw [run_applied_of_le (by omega), hlimit]
  rfl

/-- With room it is counted, and closed behind whatever the computation inside ends in. -/
theorem applied {m : Counted α} {r : Run α} (h : Follows limit room m r) (env : Env)
    (expr : Expr) : Follows limit (room + 1) (Counted.applied m) (Run.within env expr r) := by
  refine ⟨h.settled.within env expr, fun c hlimit hroom => ?_⟩
  have hless : c.limit - (c.depth + 1) = room := by omega
  have hinside := h.counts { c with depth := c.depth + 1, steps := c.steps + 1 } hlimit hless
  rw [run_applied_of_lt (by omega) hinside, Run.events_within, List.cons_append, List.foldl_cons,
    List.foldl_append]
  rfl

end Follows

/-- Whatever solves the equation follows evaluation with any room. -/
theorem Solves.follows {eval : Env → Expr → Counted Derived} (h : Solves eval) (limit room : Nat)
    (env : Env) (expr : Expr) :
    Follows limit room (eval env expr) (evalWith Operator.apply limit room env expr) := by
  induction room generalizing env expr with
  | zero =>
    rw [h env expr]
    exact .refused _
  | succ room ih =>
    rw [h env expr]
    exact (Follows.rule ih env expr).applied env expr

end Counted

namespace Context

/-- Evaluation as a computation on the context. -/
def counted (env : Env) (expr : Expr) : Counted Derived := ⟨fun c => c.eval env expr⟩

/-- Evaluation in a context follows evaluation with the room that the context leaves. -/
theorem follows_counted (limit room : Nat) (env : Env) (expr : Expr) :
    Counted.Follows limit room (counted env expr)
      (evalWith Operator.apply limit room env expr) := by
  refine ⟨settled_evalWith Operator.apply limit room env expr, ?_⟩
  rintro c rfl rfl
  rfl

/-- Evaluation in a context counts on it as it goes: it looks at the limit, opens a rule
application, evaluates the premises on the context that the ones before have left, and closes the
rule application, also after an error. No other evaluation does. -/
theorem solves_iff {eval : Env → Expr → Counted Derived} :
    Counted.Solves eval ↔ eval = counted := by
  constructor
  · intro h
    funext env expr
    ext1
    funext c
    exact (h.follows c.limit (c.limit - c.depth) env expr).counts c rfl rfl
  · rintro rfl env expr
    ext1
    funext c
    cases hroom : c.limit - c.depth with
    | zero =>
      rw [(follows_counted c.limit 0 env expr).counts c rfl hroom]
      exact ((Counted.Follows.refused _).counts c rfl hroom).symm
    | succ room =>
      have hrule := Counted.Follows.rule (follows_counted c.limit room) env expr
      rw [(follows_counted c.limit (room + 1) env expr).counts c rfl hroom]
      exact ((hrule.applied env expr).counts c rfl hroom).symm

end Context

end BigStep
