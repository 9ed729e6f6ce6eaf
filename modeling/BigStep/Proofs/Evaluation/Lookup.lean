import Mathlib.Logic.Function.Iterate
import BigStep.Proofs.Evaluation.Accounting

/-!
# Looking variables up by rules

A variable is evaluated one binding at a time, each by a rule application of its own that counts
against the limit. What comes out is what a search through the environment finds.

* `Derivation.lookupChain`: the derivation that passes over some bindings and takes the next.
* `Env.bindings_cases`: how the newest binding of a name lies, from the newest binding of all on.
  This is what one rule application learns.
* `outcome_evalWith_var_of_bindings`, `outcome_evalWith_var_of_unbound`: by induction on the room,
  what evaluation gives for a name that is bound and for one that is not.
* `evaluate_var_eq_lookup`: the same for whole evaluations.
-/

namespace BigStep

/-! ## Bindings -/

namespace Env

/-- The last of the bindings is the newest. -/
theorem exists_extend_of_bindings {env : Env} {earlier : List (String × Value)} {y : String}
    {w : Value} (h : env.bindings = earlier ++ [(y, w)]) :
    ∃ rest : Env, env = rest.extend y w ∧ rest.bindings = earlier := by
  cases env with
  | empty => simp [bindings] at h
  | extend rest name value =>
    obtain ⟨hrest, ⟨⟩⟩ := List.append_singleton_inj.mp h
    exact ⟨rest, rfl, hrest⟩

/-- The newest binding of a name is the newest of all, or it lies behind one of another name. -/
theorem bindings_cases {env : Env} {x : String} {v : Value} {older newer : List (String × Value)}
    (h : env.bindings = older ++ (x, v) :: newer) :
    (newer = [] ∧ ∃ rest : Env, env = rest.extend x v) ∨
      ∃ (rest : Env) (y : String) (w : Value) (newer' : List (String × Value)),
        newer = newer' ++ [(y, w)] ∧ env = rest.extend y w ∧
        rest.bindings = older ++ (x, v) :: newer' := by
  rcases newer.eq_nil_or_concat with rfl | ⟨newer', ⟨y, w⟩, rfl⟩
  · obtain ⟨rest, rfl, -⟩ := exists_extend_of_bindings h
    exact .inl ⟨rfl, rest, rfl⟩
  · rw [List.concat_eq_append, ← List.cons_append, ← List.append_assoc] at h
    obtain ⟨rest, rfl, hrest⟩ := exists_extend_of_bindings h
    exact .inr ⟨rest, y, w, newer', List.concat_eq_append, rfl, hrest⟩

/-- A search finds the newest binding of the name. -/
theorem lookup?_of_bindings {x : String} {v : Value} {older newer : List (String × Value)}
    (hnewer : ∀ b ∈ newer, b.1 ≠ x) {env : Env} (h : env.bindings = older ++ (x, v) :: newer) :
    env.lookup? x = some v := by
  rcases bindings_cases h with ⟨-, rest, rfl⟩ | ⟨rest, y, w, newer', rfl, rfl, hrest⟩
  · exact if_pos rfl
  · rw [List.forall_mem_append] at hnewer
    rw [lookup?, if_neg (hnewer.2 (y, w) List.mem_cons_self)]
    exact lookup?_of_bindings hnewer.1 hrest
termination_by newer.length

end Env

/-! ## Chains -/

namespace Derivation

/-- The value of a variable under an environment, by passing over the `k` newest bindings and taking
the next. -/
def lookupChain (x : String) (v : Value) : Nat → Env → Derivation
  | 0, env => ⟨.evalTo env (.var x) v, .var1, []⟩
  | k + 1, env => ⟨.evalTo env (.var x) v, .var2, [lookupChain x v k env.withoutLast]⟩

theorem judgment_lookupChain (x : String) (v : Value) (k : Nat) (env : Env) :
    (lookupChain x v k env).judgment = .evalTo env (.var x) v := by
  cases k <;> rfl

theorem rule_lookupChain (x : String) (v : Value) (k : Nat) (env : Env) :
    (lookupChain x v k env).rule = if 0 < k then .var2 else .var1 := by
  cases k <;> rfl

theorem length_goals_lookupChain (x : String) (v : Value) (k : Nat) (env : Env) :
    (lookupChain x v k env).goals.length = k + 1 := by
  induction k generalizing env with
  | zero => rfl
  | succ k ih => simp [lookupChain, ih]

/-- The node at each place of the chain is the rest of the chain from there on. -/
theorem getElem?_nodes_lookupChain (x : String) (v : Value) {k j : Nat} (h : j ≤ k) (env : Env) :
    (lookupChain x v k env).nodes[j]? =
      some (lookupChain x v (k - j) (Env.withoutLast^[j] env)) := by
  induction j generalizing k env with
  | zero => cases k <;> rfl
  | succ j ih =>
    obtain ⟨k, rfl⟩ : ∃ i, k = i + 1 := ⟨k - 1, by omega⟩
    rw [lookupChain, nodes, nodesAll_eq_flatMap, List.getElem?_cons_succ, List.flatMap_singleton,
      ih (Nat.le_of_succ_le_succ h), Function.iterate_succ_apply, Nat.add_sub_add_right]

end Derivation

/-! ## Evaluation -/

/-- What is made of the result of a run is made of its outcome. -/
theorem Run.outcome_bind_pure {α β : Type} (r : Run α) (f : α → β) :
    (r >>= fun a => pure (f a)).outcome = r.outcome.map f := by
  cases h : r.outcome with
  | error e => rw [outcome_bind_error h]; rfl
  | ok a => rw [outcome_bind_ok h]; rfl

namespace Evaluation

open BigStep.Derivation

/-- A name that is bound takes a rule application for each newer binding and one for its own. -/
theorem outcome_evalWith_var_of_bindings (arithmetic : Arithmetic) (limit room : Nat)
    {env : Env} {x : String} {v : Value} {older newer : List (String × Value)}
    (h : env.bindings = older ++ (x, v) :: newer) (hnewer : ∀ b ∈ newer, b.1 ≠ x) :
    (evalWith arithmetic limit room env (.var x)).outcome =
      if newer.length + 1 ≤ room then .ok ⟨v, lookupChain x v newer.length env⟩
      else .error (.recursionLimit limit) := by
  induction room generalizing env newer with
  | zero => rfl
  | succ room ih =>
    rw [evalWith, Run.outcome_within]
    rcases Env.bindings_cases h with ⟨rfl, rest, rfl⟩ | ⟨rest, y, w, newer', rfl, rfl, hrest⟩
    · simp [step, conclude, lookupChain]
    · rw [List.forall_mem_append] at hnewer
      have hne : y ≠ x := hnewer.2 (y, w) List.mem_cons_self
      simp only [step, if_neg hne, Run.outcome_bind_pure, ih hrest hnewer.1,
        List.length_append, List.length_singleton, Nat.add_le_add_iff_right]
      split <;> rfl

/-- A name that is not bound takes a rule application for each binding and one to find none. -/
theorem outcome_evalWith_var_of_unbound (arithmetic : Arithmetic) (limit room : Nat)
    {env : Env} {x : String} (h : env.lookup? x = none) :
    (evalWith arithmetic limit room env (.var x)).outcome =
      if env.size + 1 ≤ room then .error (.unboundVariable x)
      else .error (.recursionLimit limit) := by
  induction room generalizing env with
  | zero => rfl
  | succ room ih =>
    rw [evalWith, Run.outcome_within]
    cases env with
    | empty => simp [step, Env.size]
    | extend rest y w =>
      rw [Env.lookup?] at h
      split at h
      · cases h
      · next hne =>
        simp only [step, if_neg hne, Run.outcome_bind_pure, ih h, Env.size,
          Nat.add_le_add_iff_right]
        split <;> rfl

end Evaluation

open BigStep.Derivation

theorem evaluate_var_of_bindings (limit : Nat) {env : Env} {x : String} {v : Value}
    {older newer : List (String × Value)} (h : env.bindings = older ++ (x, v) :: newer)
    (hnewer : ∀ b ∈ newer, b.1 ≠ x) :
    evaluate limit env (.var x) =
      if newer.length + 1 ≤ limit then
        .ok ⟨v, lookupChain x v newer.length env, newer.length + 1⟩
      else .error (.recursionLimit limit) := by
  have hrun := Evaluation.outcome_evalWith_var_of_bindings Operator.apply limit limit h hnewer
  split at hrun
  · next hroom =>
    have hev : evaluate limit env (.var x) =
        .ok ⟨v, lookupChain x v newer.length env, (Evaluation.run limit env (.var x)).steps⟩ := by
      rw [evaluate, Evaluation.run, hrun]
      rfl
    have hsteps : (Evaluation.run limit env (.var x)).steps = newer.length + 1 :=
      (steps_eq_length_goals hev).trans (length_goals_lookupChain x v newer.length env)
    rw [if_pos hroom, hev, hsteps]
  · next hroom =>
    rw [if_neg hroom, evaluate, Evaluation.run, hrun]
    rfl

/-- Evaluating a variable gives what a search through the environment finds. If `k` bindings of
other names are newer than the newest one of the variable, it takes `k + 1` rule applications inside
each other, and the derivation is a chain of `k` that each drop the newest binding, over one that
takes it. If there is none, all bindings are passed over before that is known. With less room than
that, the limit is reached. -/
theorem evaluate_var_eq_lookup (env : Env) (x : String) (limit : Nat) :
    (∀ (older newer : List (String × Value)) (v : Value),
      env.bindings = older ++ (x, v) :: newer → (∀ b ∈ newer, b.1 ≠ x) →
        env.lookup? x = some v ∧
        evaluate limit env (.var x) =
          (if newer.length + 1 ≤ limit then
            .ok ⟨v, lookupChain x v newer.length env, newer.length + 1⟩
          else .error (.recursionLimit limit)) ∧
        ∀ j ≤ newer.length, ∃ node,
          (lookupChain x v newer.length env).nodes[j]? = some node ∧
          node.judgment = .evalTo (Env.withoutLast^[j] env) (.var x) v ∧
          node.rule = if j < newer.length then .var2 else .var1) ∧
    (env.lookup? x = none →
      evaluate limit env (.var x) =
        if env.size + 1 ≤ limit then .error (.unboundVariable x)
        else .error (.recursionLimit limit)) := by
  constructor
  · intro older newer v h hnewer
    refine ⟨Env.lookup?_of_bindings hnewer h, evaluate_var_of_bindings limit h hnewer, ?_⟩
    intro j hj
    refine ⟨_, getElem?_nodes_lookupChain x v hj env, judgment_lookupChain .., ?_⟩
    rw [rule_lookupChain]
    simp only [Nat.sub_pos_iff_lt]
  · intro h
    have hrun := Evaluation.outcome_evalWith_var_of_unbound Operator.apply limit limit h
    rw [evaluate, Evaluation.run, hrun]
    split <;> rfl

/-- The environment `x = 9, x = 1, y = 2, z = true`. -/
def shadowed : Env :=
  (((Env.empty.extend "x" (.int 9)).extend "x" (.int 1)).extend "y" (.int 2)).extend "z"
    (.bool true)

/-- Three rule applications find the newer of the two bindings of `x`, and it takes five to find
none of `w`; one less reaches the limit. -/
theorem evaluate_var_eq_lookup_shadowed :
    evaluate 3 shadowed (.var "x") = .ok ⟨.int 1, lookupChain "x" (.int 1) 2 shadowed, 3⟩ ∧
      evaluate 2 shadowed (.var "x") = .error (.recursionLimit 2) ∧
      evaluate 5 shadowed (.var "w") = .error (.unboundVariable "w") ∧
      evaluate 4 shadowed (.var "w") = .error (.recursionLimit 4) := by
  have hx (limit : Nat) := (evaluate_var_eq_lookup shadowed "x" limit).1 [("x", .int 9)]
    [("y", .int 2), ("z", .bool true)] (.int 1) rfl (by decide)
  have hw (limit : Nat) := (evaluate_var_eq_lookup shadowed "w" limit).2 rfl
  exact ⟨(hx 3).2.1, (hx 2).2.1, hw 5, hw 4⟩

end BigStep
