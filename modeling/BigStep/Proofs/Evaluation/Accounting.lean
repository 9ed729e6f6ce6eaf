import BigStep.Proofs.Evaluation.Limit
import BigStep.Proofs.Evaluation.Log

/-!
# Steps and size

The number of rule applications of an evaluation is counted while it runs, and the size of the
derivation on the finished tree. Both tell of the same nodes: none is dropped on the way, and none
is made twice.

* `Derivation.goals`: what the evaluation nodes of a tree ask for, in the order of the nodes.
* `goals_step`: a rule application that succeeds begins what its premises ask for. This is the only
  place where the ways to evaluate are looked at one by one.
* `goals_evalWith`: by induction on the room, an evaluation begins exactly what its derivation asks
  for, in that order.
* `Derivation.RestsOn`: an operation and the fact about numbers that is its third premise.
* `Rule.Instance.countP_primitive`: an operation has one fact about numbers among its premises, and
  every other rule none.
* `Derivation.Valid.restsOn`, `Derivation.Valid.size_eq`: the same for whole derivations.
* `evaluate_accounts`: steps, size and facts about numbers of a whole evaluation.
-/

namespace BigStep

/-- What the judgment asks for, if it is an evaluation. -/
def Judgment.goal? : Judgment → Option (Env × Expr)
  | evalTo env expr _ => some (env, expr)
  | primitive _ _ _ _ => none

/-- The judgment is an evaluation, and not a fact about numbers. -/
def Judgment.isEvalTo : Judgment → Bool
  | evalTo _ _ _ => true
  | primitive _ _ _ _ => false

/-- The rule is the one for evaluating an operator: `E-Plus`, `E-Minus`, `E-Times` or `E-Lt`. -/
def Rule.isOperation : Rule → Bool
  | operation _ => true
  | _ => false

theorem Judgment.isSome_goal? (j : Judgment) : j.goal?.isSome = j.isEvalTo := by
  cases j <;> rfl

namespace Derivation

/-! ## Goals of a derivation -/

/-- What the evaluation nodes ask for, in the order of the nodes. -/
def goals (d : Derivation) : List (Env × Expr) := d.nodes.filterMap (·.judgment.goal?)

@[simp] theorem goals_evalTo (env : Env) (expr : Expr) (v : Value) (rule : Rule)
    (premises : List Derivation) :
    goals ⟨.evalTo env expr v, rule, premises⟩ = (env, expr) :: premises.flatMap goals := by
  rw [goals, nodes, nodesAll_eq_flatMap, List.filterMap_cons, List.filterMap_flatMap]
  rfl

@[simp] theorem goals_primitiveLeaf (op : Operator) (m n : Int) (v : Value) :
    (Evaluation.primitiveLeaf op m n v).goals = [] := rfl

theorem length_goals (d : Derivation) :
    d.goals.length = d.nodes.countP (·.judgment.isEvalTo) := by
  simp only [goals, List.length_filterMap_eq_countP, Judgment.isSome_goal?]

end Derivation

/-! ## Goals of a run -/

namespace Run

@[simp] theorem goals_pure {α : Type} (a : α) : (pure a : Run α).goals = [] := rfl

theorem length_goals {α : Type} (r : Run α) : r.goals.length = r.steps := by
  have hgoal (event : Event) : event.goal?.isSome = event.isEnter := by cases event <;> rfl
  simp only [goals, steps, List.length_filterMap_eq_countP, hgoal]

end Run

namespace Evaluation

@[simp] theorem goals_integer (v : Value) : (integer v).goals = [] := by
  cases v <;> rfl

@[simp] theorem goals_compute (arithmetic : Arithmetic) (op : Operator) (m n : Int) :
    (compute arithmetic op m n).goals = [] := rfl

@[simp] theorem goals_reportCall (code : Code) (v : Value) : (reportCall code v).goals = [] := by
  unfold reportCall
  split <;> rfl

/-- What `eval` begins for a premise is what the derivation that it gives asks for. -/
def Begins (eval : Env → Expr → Run Derived) : Prop :=
  ∀ env expr d, (eval env expr).outcome = .ok d → (eval env expr).goals = d.derivation.goals

/-- A rule application that succeeds begins what its premises ask for. -/
theorem goals_step {eval : Env → Expr → Run Derived} (heval : Begins eval) {arithmetic : Arithmetic}
    {env : Env} {expr : Expr} {d : Derived} (h : (step arithmetic eval env expr).outcome = .ok d) :
    d.derivation.goals = (env, expr) :: (step arithmetic eval env expr).goals := by
  cases expr with
  | int | bool | func =>
    cases h
    rfl
  | var name =>
    cases env with
    | empty => cases h
    | extend rest bound value =>
      by_cases hb : bound = name
      · simp only [step, if_pos hb, Run.outcome_pure] at h ⊢
        cases h
        rfl
      · simp only [step, if_neg hb] at h ⊢
        obtain ⟨older, ho, h⟩ := Run.outcome_bind_eq_ok.mp h
        cases h
        simp [conclude, Run.goals_bind_ok ho, heval _ _ _ ho]
  | binary op left right =>
    simp only [step, Run.outcome_bind_eq_ok] at h ⊢
    obtain ⟨l, hl, r, hr, m, hm, n, hn, v, hv, h⟩ := h
    cases h
    simp [conclude, Run.goals_bind_ok hl, Run.goals_bind_ok hr, Run.goals_bind_ok hm,
      Run.goals_bind_ok hn, Run.goals_bind_ok hv, heval _ _ _ hl, heval _ _ _ hr]
  | cond condition thenBranch elseBranch =>
    obtain ⟨⟨value, c⟩, hc, h⟩ := Run.outcome_bind_eq_ok.mp h
    -- With the value of the condition in constructor form, the branch that is taken is plain.
    cases value with
    | bool b =>
      cases b with
      | true | false =>
        obtain ⟨b, hb, h⟩ := Run.outcome_bind_eq_ok.mp h
        cases h
        simp [step, conclude, Run.goals_bind_ok hc, Run.goals_bind_ok hb, heval _ _ _ hc,
          heval _ _ _ hb]
    | int | closure => cases h
  | letIn name value body =>
    simp only [step, Run.outcome_bind_eq_ok] at h ⊢
    obtain ⟨w, hw, b, hb, h⟩ := h
    cases h
    simp [conclude, Run.goals_bind_ok hw, Run.goals_bind_ok hb, heval _ _ _ hw, heval _ _ _ hb]
  | letRec name param functionBody body =>
    simp only [step, Run.outcome_bind_eq_ok] at h ⊢
    obtain ⟨b, hb, h⟩ := h
    cases h
    simp [conclude, Run.goals_bind_ok hb, heval _ _ _ hb]
  | app function argument =>
    obtain ⟨⟨value, f⟩, hf, h⟩ := Run.outcome_bind_eq_ok.mp h
    cases value with
    | int | bool => cases h
    | closure captured code =>
      simp only [Run.outcome_bind_eq_ok] at h
      obtain ⟨a, ha, u, hu, b, hb, h⟩ := h
      cases h
      simp [step, conclude, Run.goals_bind_ok hf, Run.goals_bind_ok ha, Run.goals_bind_ok hu,
        Run.goals_bind_ok hb, heval _ _ _ hf, heval _ _ _ ha, heval _ _ _ hb]

/-- An evaluation that succeeds begins what its derivation asks for. -/
theorem goals_evalWith (arithmetic : Arithmetic) (limit room : Nat) :
    Begins (evalWith arithmetic limit room) := by
  induction room with
  | zero => intro env expr d h; cases h
  | succ room ih =>
    intro env expr d h
    rw [evalWith, Run.goals_within, goals_step ih h]

end Evaluation

/-- The rule applications that an evaluation takes are as many as its derivation asks for. -/
theorem steps_eq_length_goals {limit : Nat} {env : Env} {expr : Expr} {ev : Evaluation}
    (h : evaluate limit env expr = .ok ev) : ev.steps = ev.derivation.goals.length := by
  obtain ⟨d, hd, rfl⟩ := exists_outcome_of_evaluate h
  rw [← Evaluation.goals_evalWith Operator.apply limit limit env expr d hd]
  exact (Run.length_goals _).symm

/-! ## Facts about numbers -/

/-- The node is an operation, and the leaf is its third premise: a fact about numbers with the
operator of the node, the values of its two operands and its value. -/
inductive Derivation.RestsOn : Derivation → Derivation → Prop
  | operation {op : Operator} {env : Env} {l r : Expr} {m n : Int} {v : Value}
      {left right : Derivation} (hl : left.judgment = .evalTo env l (.int m))
      (hr : right.judgment = .evalTo env r (.int n)) :
      RestsOn
        ⟨.evalTo env (.binary op l r) v, .operation op,
          [left, right, ⟨.primitive op m n v, .primitive op, []⟩]⟩
        ⟨.primitive op m n v, .primitive op, []⟩

namespace Rule.Instance

variable {rule : Rule} {premises : List Judgment} {conclusion : Judgment}

theorem isEvalTo_eq (h : rule.Instance premises conclusion) :
    conclusion.isEvalTo = rule.isEvaluation := by
  cases h <;> rfl

/-- An operation has one fact about numbers among its premises, and every other rule none. -/
theorem countP_primitive (h : rule.Instance premises conclusion) :
    premises.countP (!·.isEvalTo) = if rule.isOperation then 1 else 0 := by
  cases h <;> rfl

/-- A fact about numbers is a premise of an operation and stands third there. -/
theorem exists_operation (h : rule.Instance premises conclusion) {i : Nat} {p : Judgment}
    (hp : premises[i]? = some p) (hfact : p.isEvalTo = false) :
    i = 2 ∧ ∃ (op : Operator) (env : Env) (l r : Expr) (m n : Int) (v : Value),
      rule = .operation op ∧ conclusion = .evalTo env (.binary op l r) v ∧
      premises = [.evalTo env l (.int m), .evalTo env r (.int n), .primitive op m n v] := by
  have hsome : 0 < premises.countP (!·.isEvalTo) :=
    List.countP_pos_iff.mpr ⟨p, List.mem_of_getElem? hp, by rw [hfact]; rfl⟩
  rw [h.countP_primitive] at hsome
  -- Only an operation has such a premise, and its first two are evaluations.
  cases h with
  | operation =>
    match i, hp with
    | 0, hp | 1, hp => cases hp; cases hfact
    | 2, _ => exact ⟨rfl, _, _, _, _, _, _, _, rfl, rfl, rfl⟩
  | _ => exact absurd hsome (Nat.lt_irrefl 0)

end Rule.Instance

namespace Derivation

/-- Every node but the root is a premise of a node. -/
theorem eq_or_exists_premise_of_mem_nodes {d node : Derivation} (h : node ∈ d.nodes) :
    node = d ∨ ∃ parent ∈ d.nodes, node ∈ parent.premises := by
  induction d using induction with
  | node d ih =>
    rcases mem_nodes.mp h with rfl | ⟨p, hp, hn⟩
    · exact .inl rfl
    · rcases ih p hp hn with rfl | ⟨parent, hparent, hpremise⟩
      · exact .inr ⟨d, mem_nodes_self d, hp⟩
      · exact .inr ⟨parent, mem_nodes.mpr (.inr ⟨p, hp, hparent⟩), hpremise⟩

/-- A premise that is a fact about numbers is the one that its node rests on. -/
theorem Valid.restsOn {d : Derivation} (hd : d.Valid) {i : Nat} {leaf : Derivation}
    (hleaf : d.premises[i]? = some leaf) (hfact : leaf.judgment.isEvalTo = false) :
    i = 2 ∧ d.RestsOn leaf := by
  obtain ⟨judgment, rule, premises⟩ := d
  obtain ⟨hinstance, hpremises⟩ := valid_iff.mp hd
  have hj : (premises.map (·.judgment))[i]? = some leaf.judgment := by
    rw [List.getElem?_map, hleaf]
    rfl
  obtain ⟨rfl, op, env, l, r, m, n, v, hrule, hjudgment, hjs⟩ :=
    hinstance.exists_operation hj hfact
  simp only [List.map_eq_cons_iff, List.map_eq_nil_iff] at hjs
  obtain ⟨left, _, rfl, hl, right, _, rfl, hr, fact, _, rfl, hf, rfl⟩ := hjs
  obtain rfl : fact = leaf := by simpa using hleaf
  obtain ⟨-, rfl⟩ := (Evaluation.valid_primitive_iff hf).mp (hpremises fact (by simp))
  obtain rfl : judgment = _ := hjudgment
  obtain rfl : rule = _ := hrule
  exact ⟨rfl, .operation hl hr⟩

mutual

theorem length_nodes : (d : Derivation) → d.nodes.length = d.size
  | ⟨_, _, premises⟩ => by
    rw [nodes, List.length_cons, length_nodesAll premises, size, Nat.add_comm]

theorem length_nodesAll : (ds : List Derivation) → (nodesAll ds).length = sizeAll ds
  | [] => rfl
  | d :: ds => by
    rw [nodesAll, List.length_append, length_nodes d, length_nodesAll ds, sizeAll]

end

/-- Facts about numbers are as many as operations in several trees, the roots apart. -/
theorem countP_nodesAll {ds : List Derivation}
    (h : ∀ d ∈ ds, d.nodes.countP (!·.judgment.isEvalTo) =
      d.nodes.countP (·.rule.isOperation) + if d.judgment.isEvalTo then 0 else 1) :
    (nodesAll ds).countP (!·.judgment.isEvalTo) =
      (nodesAll ds).countP (·.rule.isOperation) + ds.countP (!·.judgment.isEvalTo) := by
  induction ds with
  | nil => rfl
  | cons d ds ih =>
    rw [List.forall_mem_cons] at h
    rw [nodesAll, List.countP_append, List.countP_append, List.countP_cons, h.1, ih h.2]
    cases d.judgment.isEvalTo <;> simp <;> omega

/-- In a valid tree facts about numbers are as many as operations, a root that is one apart. -/
theorem Valid.countP_primitive {d : Derivation} (hd : d.Valid) :
    d.nodes.countP (!·.judgment.isEvalTo) =
      d.nodes.countP (·.rule.isOperation) + if d.judgment.isEvalTo then 0 else 1 := by
  induction d using induction with
  | node d ih =>
    obtain ⟨judgment, rule, premises⟩ := d
    obtain ⟨hinstance, hpremises⟩ := valid_iff.mp hd
    -- Below the root there are more facts than operations just by those among the premises, and the
    -- root makes up for these if it is an operation.
    have hbelow := countP_nodesAll fun p hp => ih p hp (hpremises p hp)
    have hroot : premises.countP (!·.judgment.isEvalTo) = if rule.isOperation then 1 else 0 := by
      rw [← hinstance.countP_primitive, List.countP_map]
      rfl
    rw [nodes, List.countP_cons, List.countP_cons, hbelow, hroot]
    cases judgment.isEvalTo <;> simp

/-- The size of a valid evaluation: its evaluation nodes, and a fact about numbers for each
operation. -/
theorem Valid.size_eq {d : Derivation} (hd : d.Valid) (hroot : d.judgment.isEvalTo = true) :
    d.size = d.nodes.countP (·.judgment.isEvalTo) + d.nodes.countP (·.rule.isOperation) := by
  have hsplit := List.length_eq_countP_add_countP (l := d.nodes) (·.judgment.isEvalTo)
  have hfacts := hd.countP_primitive
  simp only [hroot, if_true, Nat.add_zero] at hfacts
  rw [← length_nodes, hsplit, ← hfacts]
  simp

end Derivation

/-- The steps of an evaluation are the evaluation nodes of its derivation, which are the nodes with
a rule for evaluation. The derivation has one node more for each operation: the fact about numbers
that the operation rests on. Every fact about numbers is such a leaf, and stands third wherever it
is a premise. -/
theorem evaluate_accounts {limit : Nat} {env : Env} {expr : Expr} {ev : Evaluation}
    (h : evaluate limit env expr = .ok ev) :
    ev.steps = ev.derivation.nodes.countP (·.judgment.isEvalTo) ∧
    (∀ node ∈ ev.derivation.nodes, node.judgment.isEvalTo = node.rule.isEvaluation) ∧
    ev.derivation.size = ev.steps + ev.derivation.nodes.countP (·.rule.isOperation) ∧
    (∀ leaf ∈ ev.derivation.nodes, leaf.judgment.isEvalTo = false →
      ∃ node ∈ ev.derivation.nodes, node.RestsOn leaf) ∧
    ∀ node ∈ ev.derivation.nodes, ∀ (i : Nat) (leaf : Derivation),
      node.premises[i]? = some leaf → leaf.judgment.isEvalTo = false →
        i = 2 ∧ node.RestsOn leaf := by
  obtain ⟨hvalid, hjudgment, -⟩ := evaluate_eq_ok_iff.mp ⟨ev.steps, h⟩
  have hroot : ev.derivation.judgment.isEvalTo = true := by rw [hjudgment]; rfl
  have hsteps : ev.steps = ev.derivation.nodes.countP (·.judgment.isEvalTo) :=
    (steps_eq_length_goals h).trans ev.derivation.length_goals
  refine ⟨hsteps, fun node hnode => (hvalid node hnode).isEvalTo_eq, ?_, ?_, ?_⟩
  · rw [hsteps, hvalid.size_eq hroot]
  · intro leaf hleaf hfact
    rcases Derivation.eq_or_exists_premise_of_mem_nodes hleaf with rfl | ⟨node, hnode, hpremise⟩
    · rw [hroot] at hfact
      cases hfact
    · obtain ⟨i, hi⟩ := List.mem_iff_getElem?.mp hpremise
      exact ⟨node, hnode, ((hvalid.of_mem_nodes hnode).restsOn hi hfact).2⟩
  · intro node hnode i leaf hi hfact
    exact (hvalid.of_mem_nodes hnode).restsOn hi hfact

/-- The program `let f = fun x -> x * x in f 3 < 10`. -/
def squareBelow : Expr :=
  .letIn "f" (.func "x" (.binary .mul (.var "x") (.var "x")))
    (.binary .less (.app (.var "f") (.int 3)) (.int 10))

/-- Ten rule applications and two facts about numbers, one for each operator. -/
theorem evaluate_accounts_squareBelow :
    ∃ ev, evaluate 5 .empty squareBelow = .ok ev ∧ ev.steps = 10 ∧
      ev.derivation.size = ev.steps + ev.derivation.nodes.countP (·.rule.isOperation) ∧
      ev.derivation.size = 12 := by
  obtain ⟨ev, hev, hsteps, hsize⟩ : ∃ ev, evaluate 5 .empty squareBelow = .ok ev ∧ ev.steps = 10 ∧
      ev.derivation.size = 12 := ⟨_, rfl, rfl, rfl⟩
  exact ⟨ev, hev, hsteps, (evaluate_accounts hev).2.2.1, hsize⟩

end BigStep
