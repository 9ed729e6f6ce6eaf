import BigStep.Evaluation.Log
import BigStep.Proofs.Evaluation.Agreement

/-!
# The log and the derivation

What an evaluation reports on its way down can be read off the derivation that it builds on its way
up.

* `Derivation.walk depth d`: the lines that tell of the derivation, from the root at a depth on. A
  call of a recursive function is told between its argument and its body.
* `Run.Says r lines`: the messages of the run are these lines, at whatever depth it begins. One
  lemma for each way to build a run.
* `says_step`: a rule application that succeeds says what its premises say. This is the only place
  where the rules are looked at one by one.
* `says_evalWith`: by induction on the room, an evaluation says what its derivation tells.
* `trace_eq_walk`: the same for the log of a whole evaluation.
-/

namespace BigStep

namespace Derivation

/-- The line for a rule application at a depth: two spaces for each one around it, then what is to
be evaluated. -/
def goalLine (depth : Nat) (env : Env) (expr : Expr) : String :=
  Text.spaces (2 * (depth - 1)) ++ env.text ++ " |- " ++ expr.text

/-- The line for the call of a recursive function, from the derivations of the function and of the
argument. -/
def callLine (function argument : Derivation) : List String :=
  match function.value?, argument.value? with
  | some (.closure _ ⟨some name, _, _⟩), some value =>
    ["applying recursive closure " ++ name ++ " to " ++ value.text]
  | _, _ => []

mutual

/-- The lines that tell of a derivation whose root is at the given depth. Facts about numbers are
not told. -/
def walk (depth : Nat) : Derivation → List String
  | ⟨.primitive _ _ _ _, _, _⟩ => []
  | ⟨.evalTo env expr _, .appRec, function :: argument :: body⟩ =>
    goalLine depth env expr :: (function.walk (depth + 1) ++ argument.walk (depth + 1) ++
      callLine function argument ++ walkAll (depth + 1) body)
  | ⟨.evalTo env expr _, _, premises⟩ => goalLine depth env expr :: walkAll (depth + 1) premises

/-- The lines that tell of several derivations, one after the other. -/
def walkAll (depth : Nat) : List Derivation → List String
  | [] => []
  | d :: ds => d.walk depth ++ walkAll depth ds

end

end Derivation

namespace LogEntry

/-- The entry tells of the course of the evaluation, and not of the question or the answer. -/
def isTrace : LogEntry → Bool
  | applied _ _ _ => true
  | called _ _ => true
  | _ => false

/-- The entry tells of a rule application. -/
def isApplied : LogEntry → Bool
  | applied _ _ _ => true
  | _ => false

end LogEntry

/-- The messages for a list of events that begins inside `depth` rule applications. -/
def messages (depth : Nat) (events : List Event) : List String :=
  (LogEntry.ofEvents depth events).map LogEntry.text

/-- The run reports these lines, at whatever depth it begins, and is back at that depth behind
them. -/
def Run.Says {α : Type} (r : Run α) (lines : Nat → List String) : Prop :=
  ∀ depth later, messages depth (r.events ++ later) = lines depth ++ messages depth later

namespace Run.Says

variable {α β : Type}

theorem of_no_events {r : Run α} (h : r.events = []) : r.Says fun _ => [] := by
  intro depth later
  rw [h]
  rfl

theorem pure (a : α) : (Pure.pure a : Run α).Says fun _ => [] := of_no_events rfl

/-- A run that succeeds is followed by what the next one says. -/
theorem bind {r : Run α} {a : α} {f : α → Run β} {lines more : Nat → List String}
    (hr : r.Says lines) (ha : r.outcome = .ok a) (hf : (f a).Says more) :
    (r >>= f).Says fun depth => lines depth ++ more depth := by
  intro depth later
  rw [events_bind_ok ha, List.append_assoc, hr, hf, List.append_assoc]

/-- A rule application says what it is for, and then, one level further in, what the run inside it
says. -/
theorem within {r : Run α} {lines : Nat → List String} (hr : r.Says lines) (env : Env)
    (expr : Expr) :
    (Run.within env expr r).Says fun depth =>
      Derivation.goalLine (depth + 1) env expr :: lines (depth + 1) := by
  intro depth later
  have hinside := hr (depth + 1) (.leave :: later)
  rw [events_within, List.append_assoc, List.singleton_append]
  exact congrArg (_ :: ·) hinside

theorem congr {r : Run α} {lines more : Nat → List String} (hr : r.Says lines)
    (h : ∀ depth, lines depth = more depth) : r.Says more :=
  funext h ▸ hr

end Run.Says

namespace Evaluation

open BigStep.Derivation

theorem says_integer {v : Value} {n : Int} (h : (integer v).outcome = .ok n) :
    (integer v).Says fun _ => [] := by
  rw [outcome_integer_eq_ok] at h
  rw [h]
  exact .pure n

theorem says_compute (arithmetic : Arithmetic) (op : Operator) (m n : Int) :
    (compute arithmetic op m n).Says fun _ => [] := fun _ _ => rfl

/-- The call of a recursive function is told as its derivations show it. -/
theorem says_reportCall {captured : Env} {code : Code} {f a : Derivation} {v : Value}
    (hf : f.value? = some (.closure captured code)) (ha : a.value? = some v) :
    (reportCall code v).Says fun _ => if code.name?.isSome then callLine f a else [] := by
  intro depth later
  obtain ⟨_ | name, param, body⟩ := code
  · rfl
  · rw [callLine, hf, ha]
    rfl

/-- What `eval` reports for a premise is what the derivation that it gives tells. -/
def Tells (eval : Env → Expr → Run Derived) : Prop :=
  ∀ env expr d, (eval env expr).outcome = .ok d →
    (eval env expr).Says fun depth => d.derivation.walk (depth + 1)

/-- Inside a rule application that succeeds is said what its derivation tells behind its first
line. -/
theorem says_step {eval : Env → Expr → Run Derived} (hconcludes : Concludes eval)
    (htells : Tells eval) {env : Env} {expr : Expr} {d : Derived}
    (h : (step Operator.apply eval env expr).outcome = .ok d) :
    ∃ lines, (step Operator.apply eval env expr).Says lines ∧
      ∀ depth, d.derivation.walk depth = goalLine depth env expr :: lines depth := by
  cases expr with
  | int | bool | func =>
    cases h
    exact ⟨_, .pure _, fun _ => rfl⟩
  | var name =>
    cases env with
    | empty => simp [step] at h
    | extend rest bound value =>
      by_cases hb : bound = name
      · simp only [step, if_pos hb, Run.outcome_pure] at h ⊢
        cases h
        exact ⟨_, .pure _, fun _ => rfl⟩
      · simp only [step, if_neg hb] at h ⊢
        obtain ⟨older, ho, h⟩ := Run.outcome_bind_eq_ok.mp h
        cases h
        exact ⟨_, (htells _ _ _ ho).bind ho (.pure _), fun _ => rfl⟩
  | binary op left right =>
    simp only [step, Run.outcome_bind_eq_ok] at h
    obtain ⟨l, hl, r, hr, m, hm, n, hn, v, hv, h⟩ := h
    cases h
    refine ⟨_, (htells _ _ _ hl).bind hl ((htells _ _ _ hr).bind hr ((says_integer hm).bind hm
      ((says_integer hn).bind hn ((says_compute _ op m n).bind hv (.pure _))))), fun depth => ?_⟩
    simp [conclude, walk, walkAll, primitiveLeaf]
  | cond condition thenBranch elseBranch =>
    obtain ⟨⟨value, c⟩, hc, h⟩ := Run.outcome_bind_eq_ok.mp h
    -- With the value of the condition in constructor form, the branch that is taken is plain.
    cases value with
    | bool b =>
      cases b with
      | true | false =>
        obtain ⟨b, hb, h⟩ := Run.outcome_bind_eq_ok.mp h
        cases h
        exact ⟨_, (htells _ _ _ hc).bind hc ((htells _ _ _ hb).bind hb (.pure _)), fun _ => rfl⟩
    | int | closure => cases h
  | letIn name value body =>
    simp only [step, Run.outcome_bind_eq_ok] at h
    obtain ⟨w, hw, b, hb, h⟩ := h
    cases h
    exact ⟨_, (htells _ _ _ hw).bind hw ((htells _ _ _ hb).bind hb (.pure _)), fun _ => rfl⟩
  | letRec name param functionBody body =>
    simp only [step, Run.outcome_bind_eq_ok] at h
    obtain ⟨b, hb, h⟩ := h
    cases h
    exact ⟨_, (htells _ _ _ hb).bind hb (.pure _), fun _ => rfl⟩
  | app function argument =>
    obtain ⟨⟨value, f⟩, hf, h⟩ := Run.outcome_bind_eq_ok.mp h
    cases value with
    | int | bool => cases h
    | closure captured code =>
      simp only [Run.outcome_bind_eq_ok] at h
      obtain ⟨a, ha, u, hu, b, hb, h⟩ := h
      cases h
      have hfv : f.value? = some (.closure captured code) := by
        rw [value?, hconcludes _ _ _ hf]
      have hav : a.derivation.value? = some a.value := by
        rw [value?, hconcludes _ _ _ ha]
      refine ⟨_, (htells _ _ _ hf).bind hf ((htells _ _ _ ha).bind ha
        ((says_reportCall hfv hav).bind hu ((htells _ _ _ hb).bind hb (.pure _)))), fun depth => ?_⟩
      obtain ⟨_ | name, param, body⟩ := code <;> simp [conclude, callRule, walk, walkAll]

/-- An evaluation that succeeds says what its derivation tells. -/
theorem says_evalWith (limit room : Nat) : Tells (evalWith Operator.apply limit room) := by
  induction room with
  | zero => intro env expr d h; cases h
  | succ room ih =>
    intro env expr d h
    obtain ⟨lines, hlines, hwalk⟩ := says_step (concludes_evalWith limit room) ih h
    exact (hlines.within env expr).congr fun depth => (hwalk (depth + 1)).symm

end Evaluation

namespace LogEntry

/-- Events are reported in the course of the evaluation. -/
theorem isTrace_of_mem_ofEvents {depth : Nat} {events : List Event} {entry : LogEntry}
    (h : entry ∈ ofEvents depth events) : entry.isTrace = true := by
  induction events generalizing depth with
  | nil => cases h
  | cons event later ih =>
    cases event with
    | leave | compute => exact ih h
    | enter | callRec =>
      rcases List.mem_cons.mp h with rfl | hlater
      · rfl
      · exact ih hlater

/-- There is an entry for each rule application that is begun. -/
theorem countP_ofEvents (depth : Nat) (events : List Event) :
    (ofEvents depth events).countP isApplied = events.countP Event.isEnter := by
  induction events generalizing depth with
  | nil => rfl
  | cons event later ih =>
    cases event with
    | enter env expr =>
      rw [ofEvents, List.countP_cons_of_pos rfl, List.countP_cons_of_pos rfl, ih]
    | leave | compute =>
      rw [ofEvents, List.countP_cons_of_neg Bool.false_ne_true, ih]
    | callRec name argument =>
      rw [ofEvents, List.countP_cons_of_neg Bool.false_ne_true,
        List.countP_cons_of_neg Bool.false_ne_true, ih]

/-- Behind the events, only the answer is reported. -/
theorem ofRun_of_ok {run : Run Derived} {d : Derived} (h : run.outcome = .ok d) :
    ofRun run = ofEvents 0 run.events ++ [finished d.value run.steps] := by
  rw [ofRun, h]

end LogEntry

/-- An evaluation that succeeds is a run that does. -/
theorem exists_outcome_of_evaluate {limit : Nat} {env : Env} {expr : Expr} {ev : Evaluation}
    (h : evaluate limit env expr = .ok ev) :
    ∃ d, (Evaluation.run limit env expr).outcome = .ok d ∧
      ev = ⟨d.value, d.derivation, (Evaluation.run limit env expr).steps⟩ := by
  rw [evaluate] at h
  cases hd : (Evaluation.run limit env expr).outcome with
  | error e => simp [hd, Except.map] at h
  | ok d => exact ⟨d, rfl, by simpa [hd, Except.map] using h.symm⟩

/-- The trace messages of an evaluation that succeeds are the lines that tell of its derivation,
from depth 1 on, and there are as many of rule applications as it took steps. -/
theorem trace_eq_walk {limit : Nat} {env : Env} {expr : Expr} {ev : Evaluation}
    (h : evaluate limit env expr = .ok ev) :
    ((LogEntry.ofRun (Evaluation.run limit env expr)).filter LogEntry.isTrace).map LogEntry.text =
      ev.derivation.walk 1 ∧
    (LogEntry.ofRun (Evaluation.run limit env expr)).countP LogEntry.isApplied = ev.steps := by
  obtain ⟨d, hd, rfl⟩ := exists_outcome_of_evaluate h
  rw [LogEntry.ofRun_of_ok hd]
  constructor
  · have hall : (LogEntry.ofEvents 0 (Evaluation.run limit env expr).events).filter
        LogEntry.isTrace = LogEntry.ofEvents 0 (Evaluation.run limit env expr).events :=
      List.filter_eq_self.mpr fun _ => LogEntry.isTrace_of_mem_ofEvents
    have hlines : messages 0 ((Evaluation.run limit env expr).events ++ []) =
        d.derivation.walk 1 ++ messages 0 [] :=
      Evaluation.says_evalWith limit limit env expr d hd 0 []
    have hanswer : [LogEntry.finished d.value (Evaluation.run limit env expr).steps].filter
        LogEntry.isTrace = [] := rfl
    rw [List.append_nil, show messages 0 [] = [] from rfl, List.append_nil] at hlines
    rw [List.filter_append, hall, hanswer, List.append_nil]
    exact hlines
  · rw [List.countP_append, LogEntry.countP_ofEvents]
    rfl

/-- The program `let rec f = fun x -> x in f 2`. -/
def recursiveIdentity : Expr := .letRec "f" "x" (.var "x") (.app (.var "f") (.int 2))

/-- The call of a recursive function is reported behind its argument and before its body. -/
theorem trace_eq_walk_recursive_call :
    ∃ ev, evaluate 3 .empty recursiveIdentity = .ok ev ∧ ev.steps = 5 ∧
      ((LogEntry.ofRun (Evaluation.run 3 .empty recursiveIdentity)).filter LogEntry.isTrace).map
          LogEntry.text =
        [" |- let rec f = fun x -> x in f 2",
          "  f = ()[rec f = fun x -> x] |- f 2",
          "    f = ()[rec f = fun x -> x] |- f",
          "    f = ()[rec f = fun x -> x] |- 2",
          "applying recursive closure f to 2",
          "    f = ()[rec f = fun x -> x], x = 2 |- x"] := by
  refine ⟨_, rfl, rfl, (trace_eq_walk rfl).1.trans ?_⟩
  decide +kernel

end BigStep
