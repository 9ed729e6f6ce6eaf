import BigStep.Proofs.Evaluation.Agreement

/-!
# Where code comes from

Evaluation makes no code of its own. Whatever expression is evaluated, and whatever a closure holds,
is part of the program or of a closure that was given with it, and so is every name that is bound.

* `Piece`: an expression, or a name that is bound.
* `Expr.pieces`, `Value.pieces`, `Env.pieces`: the sub-expressions and the names bound, in values
  and environments at every level of captured environments.
* `Judgment.sources`, `Judgment.yields`: the pieces of what is asked for, and those of the answer.
* `Rule.Instance.sources_subset`, `Rule.Instance.yields_subset`: if the premises answer from what
  they are asked, then they ask for nothing new, and the conclusion answers nothing new. These are
  the only places where the rules are looked at one by one.
* `Derivation.Valid.sources_subset`, `Derivation.Valid.yields_subset`: the same for derivations.
* `evaluate_pieces_subset`: the same for evaluation.
-/

namespace BigStep

/-- What code is made of: an expression that is part of it, or a name that it binds. -/
inductive Piece
  | expr (e : Expr)
  | binder (name : String)
  deriving DecidableEq, Repr

/-- The sub-expressions, the whole one first, and the names that they bind. -/
@[simp] def Expr.pieces : Expr → List Piece
  | int n => [.expr (int n)]
  | bool b => [.expr (bool b)]
  | var name => [.expr (var name)]
  | binary op left right => .expr (binary op left right) :: (left.pieces ++ right.pieces)
  | cond condition thenBranch elseBranch =>
    .expr (cond condition thenBranch elseBranch) ::
      (condition.pieces ++ thenBranch.pieces ++ elseBranch.pieces)
  | letIn name value body =>
    .expr (letIn name value body) :: .binder name :: (value.pieces ++ body.pieces)
  | letRec name param functionBody body =>
    .expr (letRec name param functionBody body) :: .binder name :: .binder param ::
      (functionBody.pieces ++ body.pieces)
  | func param body => .expr (func param body) :: .binder param :: body.pieces
  | app function argument => .expr (app function argument) :: (function.pieces ++ argument.pieces)

/-- The body with all its pieces, the parameter, and the name of a recursive function. -/
@[simp] def Code.pieces (code : Code) : List Piece :=
  code.name?.toList.map .binder ++ .binder code.param :: code.body.pieces

mutual

/-- The pieces of all closures in the value. -/
@[simp] def Value.pieces : Value → List Piece
  | .int _ => []
  | .bool _ => []
  | .closure env code => env.pieces ++ code.pieces

/-- The names of the bindings, and the pieces of their values. -/
@[simp] def Env.pieces : Env → List Piece
  | .empty => []
  | .extend rest name value => .binder name :: (rest.pieces ++ value.pieces)

end

namespace Judgment

/-- The pieces of the environment and of the expression. -/
@[simp] def sources : Judgment → List Piece
  | evalTo env e _ => e.pieces ++ env.pieces
  | primitive _ _ _ _ => []

/-- The pieces of the value. -/
@[simp] def yields : Judgment → List Piece
  | evalTo _ _ v => v.pieces
  | primitive _ _ _ v => v.pieces

/-- All pieces of the judgment. -/
def pieces (j : Judgment) : List Piece := j.sources ++ j.yields

end Judgment

theorem Operator.Gives.pieces_eq_nil {op : Operator} {m n : Int} {v : Value} (h : op.Gives m n v) :
    v.pieces = [] := by
  cases h <;> rfl

namespace Rule.Instance

variable {rule : Rule} {premises : List Judgment} {conclusion : Judgment}

/-- If the premises answer from what they are asked, then they ask for nothing but what is known
once the pieces of the conclusion are. -/
theorem sources_subset (h : rule.Instance premises conclusion)
    (hp : ∀ p ∈ premises, p.yields ⊆ p.sources) {known : List Piece}
    (hknown : conclusion.sources ⊆ known) : ∀ p ∈ premises, p.sources ⊆ known := by
  cases h with
  | int | bool | var1 | func | primitive => exact nofun
  | var2 | operation | condTrue | condFalse | letRec => simp_all
  | @letIn _ _ _ _ _ w =>
    simp only [List.forall_mem_cons] at hp
    have hw : w.pieces ⊆ known := List.Subset.trans hp.1 (by simp_all)
    simp_all
  -- The closure and the argument are answers, so their pieces are known; a call has no others.
  | @app _ captured _ _ b x _ w =>
    simp only [List.forall_mem_cons] at hp
    have hclosure : (Value.closure captured ⟨none, x, b⟩).pieces ⊆ known :=
      List.Subset.trans hp.1 (by simp_all)
    have hw : w.pieces ⊆ known := List.Subset.trans hp.2.1 (by simp_all)
    simp_all
  | @appRec _ captured _ _ b f x _ w =>
    simp only [List.forall_mem_cons] at hp
    have hclosure : (Value.closure captured ⟨some f, x, b⟩).pieces ⊆ known :=
      List.Subset.trans hp.1 (by simp_all)
    have hw : w.pieces ⊆ known := List.Subset.trans hp.2.1 (by simp_all)
    simp_all

/-- The conclusion answers from what is known too: its value is that of a premise, or it is found in
the environment, or it is made of the expression. -/
theorem yields_subset (h : rule.Instance premises conclusion)
    (hp : ∀ p ∈ premises, p.yields ⊆ p.sources) {known : List Piece}
    (hknown : conclusion.sources ⊆ known) : conclusion.yields ⊆ known := by
  have hs := h.sources_subset hp hknown
  cases h with try simp only [List.forall_mem_cons] at hp hs
  | int | bool => exact List.nil_subset known
  | var1 | func => simp_all
  | primitive hg => simp [hg.pieces_eq_nil]
  | var2 | letRec => exact List.Subset.trans hp.1 hs.1
  | condTrue | condFalse | letIn => exact List.Subset.trans hp.2.1 hs.2.1
  | operation | app | appRec => exact List.Subset.trans hp.2.2.1 hs.2.2.1

end Rule.Instance

/-! ## Whole derivations -/

namespace Derivation

/-- The root answers from what it is asked. -/
theorem Valid.yields_subset {d : Derivation} (hd : d.Valid) :
    d.judgment.yields ⊆ d.judgment.sources := by
  induction d using induction with
  | node d ih =>
    obtain ⟨hinstance, hpremises⟩ := valid_iff.mp hd
    have hanswers : ∀ j ∈ d.premises.map (·.judgment), j.yields ⊆ j.sources :=
      List.forall_mem_map.mpr fun p hp => ih p hp (hpremises p hp)
    exact hinstance.yields_subset hanswers (List.Subset.refl _)

/-- No node asks for anything that the root does not ask for. -/
theorem Valid.sources_subset {d : Derivation} (hd : d.Valid) {node : Derivation}
    (hnode : node ∈ d.nodes) : node.judgment.sources ⊆ d.judgment.sources := by
  induction d using induction with
  | node d ih =>
    rcases mem_nodes.mp hnode with rfl | ⟨p, hp, hn⟩
    · exact List.Subset.refl _
    · obtain ⟨hinstance, hpremises⟩ := valid_iff.mp hd
      have hanswers : ∀ j ∈ d.premises.map (·.judgment), j.yields ⊆ j.sources :=
        List.forall_mem_map.mpr fun p hp => (hpremises p hp).yields_subset
      have hpremise := hinstance.sources_subset hanswers (List.Subset.refl _) p.judgment
        (List.mem_map_of_mem hp)
      exact List.Subset.trans (ih p hp (hpremises p hp) hn) hpremise

end Derivation

/-- Evaluation makes no code. Every expression that is evaluated, and every closure body at any
level in an environment or a value of the derivation, the result included, is a sub-expression of
the program or of a closure body in its environment; and every name that is bound in these
environments and values is bound in the program or in its environment. -/
theorem evaluate_pieces_subset {limit : Nat} {env : Env} {expr : Expr} {ev : Evaluation}
    (h : evaluate limit env expr = .ok ev) :
    (∀ node ∈ ev.derivation.nodes, ∀ piece ∈ node.judgment.pieces,
      piece ∈ expr.pieces ∨ piece ∈ env.pieces) ∧
    ∀ piece ∈ ev.value.pieces, piece ∈ expr.pieces ∨ piece ∈ env.pieces := by
  obtain ⟨hvalid, hjudgment, -⟩ := evaluate_eq_ok_iff.mp ⟨ev.steps, h⟩
  have hnode : ∀ node ∈ ev.derivation.nodes, ∀ piece ∈ node.judgment.pieces,
      piece ∈ expr.pieces ∨ piece ∈ env.pieces := by
    intro node hnode piece hpiece
    have hsources := hvalid.sources_subset hnode
    have hyields := List.Subset.trans (hvalid.of_mem_nodes hnode).yields_subset hsources
    rw [hjudgment] at hsources hyields
    refine List.mem_append.mp ?_
    rcases List.mem_append.mp hpiece with hpiece | hpiece
    · exact hsources hpiece
    · exact hyields hpiece
  refine ⟨hnode, fun piece hpiece => hnode _ ev.derivation.mem_nodes_self piece ?_⟩
  rw [hjudgment]
  exact List.mem_append_right _ hpiece

/-- The environment `f = ()[fun x -> fun y -> x + y]`. -/
def curried : Env :=
  .extend .empty "f"
    (.closure .empty ⟨none, "x", .func "y" (.binary .add (.var "x") (.var "y"))⟩)

/-- The closure that `f 1` gives has its code and its names from the closure in the environment. -/
theorem evaluate_pieces_subset_curried :
    ∃ ev, evaluate 3 curried (.app (.var "f") (.int 1)) = .ok ev ∧
      ev.value = .closure (.extend .empty "x" (.int 1))
        ⟨none, "y", .binary .add (.var "x") (.var "y")⟩ ∧
      ∀ piece ∈ ev.value.pieces,
        piece ∈ (Expr.app (.var "f") (.int 1)).pieces ∨ piece ∈ curried.pieces := by
  obtain ⟨ev, hev, hvalue⟩ : ∃ ev, evaluate 3 curried (.app (.var "f") (.int 1)) = .ok ev ∧
      ev.value = .closure (.extend .empty "x" (.int 1))
        ⟨none, "y", .binary .add (.var "x") (.var "y")⟩ := ⟨_, rfl, rfl⟩
  exact ⟨ev, hev, hvalue, (evaluate_pieces_subset hev).2⟩

end BigStep
