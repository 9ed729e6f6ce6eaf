import BigStep.Derivation
import BigStep.Integer

/-!
# Valid derivations

The rule table of the language, and the derivations that keep to it.

* `Operator.Gives`: the facts about numbers, each with an exact result that is in range.
* `Rule.Instance rule premises conclusion`: one row of the table, applied to particular
  environments, expressions and values. It speaks of the judgments of the premises only.
* `Derivation.nodes`: the derivations of a tree, the whole one first.
* `Derivation.Valid`: every node is an instance of its rule.
* `Derivation.height`: the longest chain of nested evaluation nodes. A fact about numbers is no
  evaluation, so it adds nothing.
-/

namespace BigStep

/-- The operator gives this result on two integers. An integer result is exact and in range. -/
inductive Operator.Gives : Operator → Int → Int → Value → Prop
  | add {m n : Int} (h : Integer.InRange (m + n)) : Gives .add m n (.int (m + n))
  | sub {m n : Int} (h : Integer.InRange (m - n)) : Gives .sub m n (.int (m - n))
  | mul {m n : Int} (h : Integer.InRange (m * n)) : Gives .mul m n (.int (m * n))
  | less {m n : Int} : Gives .less m n (.bool (m < n))

/-- The rule allows the conclusion to follow from premises with these judgments. -/
inductive Rule.Instance : Rule → List Judgment → Judgment → Prop
  | int {env : Env} {n : Int} : Instance .int [] (.evalTo env (.int n) (.int n))
  | bool {env : Env} {b : Bool} : Instance .bool [] (.evalTo env (.bool b) (.bool b))
  | var1 {rest : Env} {x : String} {v : Value} :
      Instance .var1 [] (.evalTo (rest.extend x v) (.var x) v)
  | var2 {rest : Env} {x y : String} {v w : Value} (h : y ≠ x) :
      Instance .var2 [.evalTo rest (.var x) v] (.evalTo (rest.extend y w) (.var x) v)
  | operation {op : Operator} {env : Env} {l r : Expr} {m n : Int} {v : Value} :
      Instance (.operation op)
        [.evalTo env l (.int m), .evalTo env r (.int n), .primitive op m n v]
        (.evalTo env (.binary op l r) v)
  | condTrue {env : Env} {c t e : Expr} {v : Value} :
      Instance .condTrue [.evalTo env c (.bool true), .evalTo env t v]
        (.evalTo env (.cond c t e) v)
  | condFalse {env : Env} {c t e : Expr} {v : Value} :
      Instance .condFalse [.evalTo env c (.bool false), .evalTo env e v]
        (.evalTo env (.cond c t e) v)
  | letIn {env : Env} {x : String} {e b : Expr} {v w : Value} :
      Instance .letIn [.evalTo env e w, .evalTo (env.extend x w) b v]
        (.evalTo env (.letIn x e b) v)
  | func {env : Env} {x : String} {b : Expr} :
      Instance .func [] (.evalTo env (.func x b) (.closure env ⟨none, x, b⟩))
  | app {env captured : Env} {f a b : Expr} {x : String} {v w : Value} :
      Instance .app
        [.evalTo env f (.closure captured ⟨none, x, b⟩), .evalTo env a w,
          .evalTo (captured.extend x w) b v]
        (.evalTo env (.app f a) v)
  | letRec {env : Env} {f x : String} {e b : Expr} {v : Value} :
      Instance .letRec [.evalTo (env.extend f (.closure env ⟨some f, x, e⟩)) b v]
        (.evalTo env (.letRec f x e b) v)
  | appRec {env captured : Env} {e a b : Expr} {f x : String} {v w : Value} :
      Instance .appRec
        [.evalTo env e (.closure captured ⟨some f, x, b⟩), .evalTo env a w,
          .evalTo ((captured.extend f (.closure captured ⟨some f, x, b⟩)).extend x w) b v]
        (.evalTo env (.app e a) v)
  | primitive {op : Operator} {m n : Int} {v : Value} (h : op.Gives m n v) :
      Instance (.primitive op) [] (.primitive op m n v)

/-- The rule is one for evaluation; its name begins with `E-`. -/
def Rule.isEvaluation : Rule → Bool
  | primitive _ => false
  | _ => true

namespace Derivation

mutual

/-- The derivations that a tree is made of, the whole one first. -/
def nodes : Derivation → List Derivation
  | ⟨judgment, rule, premises⟩ => ⟨judgment, rule, premises⟩ :: nodesAll premises

/-- The derivations that several trees are made of. -/
def nodesAll : List Derivation → List Derivation
  | [] => []
  | d :: ds => d.nodes ++ nodesAll ds

end

mutual

/-- The greatest number of evaluation nodes on a path from the root. -/
def height : Derivation → Nat
  | ⟨_, rule, premises⟩ => heightAll premises + if rule.isEvaluation then 1 else 0

/-- The greatest height of several derivations. -/
def heightAll : List Derivation → Nat
  | [] => 0
  | d :: ds => max d.height (heightAll ds)

end

/-- Every node is an instance of its rule. -/
def Valid (d : Derivation) : Prop :=
  ∀ node ∈ d.nodes, node.rule.Instance (node.premises.map (·.judgment)) node.judgment

/-- Induction over the tree: what holds of a derivation once it holds of its premises, holds of
all. -/
@[elab_as_elim]
theorem induction {motive : Derivation → Prop}
    (node : ∀ d : Derivation, (∀ p ∈ d.premises, motive p) → motive d) :
    ∀ d : Derivation, motive d
  | ⟨_, _, premises⟩ => node _ fun p (_ : p ∈ premises) => induction node p
decreasing_by
  have := List.sizeOf_lt_of_mem ‹p ∈ premises›
  simp_wf
  omega

theorem nodesAll_eq_flatMap (ds : List Derivation) : nodesAll ds = ds.flatMap nodes := by
  induction ds with
  | nil => rfl
  | cons d ds ih => rw [nodesAll, List.flatMap_cons, ih]

theorem mem_nodesAll {node : Derivation} {ds : List Derivation} :
    node ∈ nodesAll ds ↔ ∃ d ∈ ds, node ∈ d.nodes := by
  induction ds with
  | nil => simp [nodesAll]
  | cons d ds ih => simp [nodesAll, ih]

/-- A node of a tree is the tree itself or a node of one of its premises. -/
theorem mem_nodes {node d : Derivation} :
    node ∈ d.nodes ↔ node = d ∨ ∃ p ∈ d.premises, node ∈ p.nodes := by
  obtain ⟨judgment, rule, premises⟩ := d
  rw [nodes, List.mem_cons, mem_nodesAll]

theorem mem_nodes_self (d : Derivation) : d ∈ d.nodes := mem_nodes.mpr (.inl rfl)

/-- Validity from the root up: the root is an instance, and each premise is valid. -/
theorem valid_iff {d : Derivation} :
    d.Valid ↔ d.rule.Instance (d.premises.map (·.judgment)) d.judgment ∧
      ∀ p ∈ d.premises, p.Valid := by
  constructor
  · intro h
    refine ⟨h d (mem_nodes_self d), fun p hp node hn => ?_⟩
    exact h node (mem_nodes.mpr (.inr ⟨p, hp, hn⟩))
  · rintro ⟨hroot, hpremises⟩ node hn
    rcases mem_nodes.mp hn with rfl | ⟨p, hp, hn⟩
    · exact hroot
    · exact hpremises p hp node hn

theorem heightAll_le_iff {ds : List Derivation} {n : Nat} :
    heightAll ds ≤ n ↔ ∀ d ∈ ds, d.height ≤ n := by
  induction ds with
  | nil => simp [heightAll]
  | cons d ds ih => rw [heightAll, Nat.max_le, ih, List.forall_mem_cons]

/-- Above an evaluation node there is one level less. -/
theorem height_le_succ_iff {d : Derivation} {n : Nat} (h : d.rule.isEvaluation = true) :
    d.height ≤ n + 1 ↔ ∀ p ∈ d.premises, p.height ≤ n := by
  obtain ⟨judgment, rule, premises⟩ := d
  rw [height, if_pos h, Nat.add_le_add_iff_right, heightAll_le_iff]

/-- The conclusion of an instance is an evaluation just if the rule is one for evaluation. -/
theorem isEvaluation_of_instance {rule : Rule} {premises : List Judgment} {env : Env} {e : Expr}
    {v : Value} (h : rule.Instance premises (.evalTo env e v)) : rule.isEvaluation = true := by
  cases h <;> rfl

/-- A valid evaluation has a height of its own. -/
theorem Valid.height_pos {d : Derivation} {env : Env} {e : Expr} {v : Value} (h : d.Valid)
    (hj : d.judgment = .evalTo env e v) : 0 < d.height := by
  obtain ⟨judgment, rule, premises⟩ := d
  subst hj
  rw [height, if_pos (isEvaluation_of_instance (valid_iff.mp h).1)]
  omega

/-- The premises of a node are no higher than the node. -/
theorem height_le_of_mem {d p : Derivation} (h : p ∈ d.premises) : p.height ≤ d.height := by
  obtain ⟨judgment, rule, premises⟩ := d
  have := heightAll_le_iff.mp (Nat.le_refl (heightAll premises)) p h
  rw [height]
  omega

/-- A node is no higher than the tree that it belongs to. -/
theorem height_le_of_mem_nodes {d node : Derivation} (h : node ∈ d.nodes) :
    node.height ≤ d.height := by
  induction d using induction with
  | node d ih =>
    rcases mem_nodes.mp h with rfl | ⟨p, hp, hn⟩
    · exact Nat.le_refl _
    · exact Nat.le_trans (ih p hp hn) (height_le_of_mem hp)

/-- The nodes of a node are nodes of the tree. -/
theorem nodes_subset {d node : Derivation} (h : node ∈ d.nodes) : node.nodes ⊆ d.nodes := by
  induction d using induction with
  | node d ih =>
    rcases mem_nodes.mp h with rfl | ⟨p, hp, hn⟩
    · exact fun _ hm => hm
    · intro m hm
      exact mem_nodes.mpr (.inr ⟨p, hp, ih p hp hn hm⟩)

theorem Valid.of_mem_nodes {d node : Derivation} (hd : d.Valid) (h : node ∈ d.nodes) :
    node.Valid :=
  fun m hm => hd m (nodes_subset h hm)

end Derivation

end BigStep
