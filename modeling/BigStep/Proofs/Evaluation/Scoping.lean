import BigStep.Proofs.Evaluation.Derivable

/-!
# Lexical scoping

What an expression evaluates to depends only on the bindings of its free variables. Two
environments that agree on these may differ in everything else, and then the closures made under
them hold different environments and are not equal. So values are compared no further than the code
of closures can see.

* `Expr.freeVars`, `Code.freeVars`: the names that an expression, or the code of a function, takes
  from outside.
* `Value.Alike`: the same integer or truth value, or closures of the same code whose environments
  are alike on the free variables of that code.
* `Env.AlikeOn names`: each of the names is bound to alike values in both, or unbound in both.
* `Rule.Instance.scoped`: every rule carries over from one environment to the other. This is the
  only place where the rules are looked at one by one.
* `Judgment.Derivable.scoped`: the same for everything derivable.
* `evaluate_noninterference`: the same for evaluation to an integer or a truth value.
-/

namespace BigStep

/-! ## Free variables -/

/-- The names that the expression takes from its environment. -/
def Expr.freeVars : Expr → List String
  | int _ => []
  | bool _ => []
  | var name => [name]
  | binary _ left right => left.freeVars ++ right.freeVars
  | cond condition thenBranch elseBranch =>
    condition.freeVars ++ thenBranch.freeVars ++ elseBranch.freeVars
  | letIn name value body => value.freeVars ++ body.freeVars.filter (· ≠ name)
  | letRec name param functionBody body =>
    functionBody.freeVars.filter (fun x => x ≠ param ∧ x ≠ name) ++
      body.freeVars.filter (· ≠ name)
  | func param body => body.freeVars.filter (· ≠ param)
  | app function argument => function.freeVars ++ argument.freeVars

/-- The names that the code of a function takes from the environment of its closure. -/
def Code.freeVars (code : Code) : List String :=
  code.body.freeVars.filter fun x => x ≠ code.param ∧ some x ≠ code.name?

/-! ## Alike values -/

/-- The values are the same integer or truth value, or closures of the same code that finds alike
values under its free variables. -/
inductive Value.Alike : Value → Value → Prop
  | int (n : Int) : Alike (.int n) (.int n)
  | bool (b : Bool) : Alike (.bool b) (.bool b)
  | closure {env₁ env₂ : Env} {code : Code}
      (h : ∀ x ∈ code.freeVars, Option.Rel Alike (env₁.lookup? x) (env₂.lookup? x)) :
      Alike (.closure env₁ code) (.closure env₂ code)

/-- Each of the names has alike values in both environments, or none in both. -/
def Env.AlikeOn (names : List String) (env₁ env₂ : Env) : Prop :=
  ∀ x ∈ names, Option.Rel Value.Alike (env₁.lookup? x) (env₂.lookup? x)

mutual

/-- Every value is like itself. -/
theorem Value.Alike.refl : (v : Value) → v.Alike v
  | .int n => .int n
  | .bool b => .bool b
  | .closure env _ => .closure fun x _ => Env.lookup?_alike env x

theorem Env.lookup?_alike : (env : Env) → (x : String) →
    Option.Rel Value.Alike (env.lookup? x) (env.lookup? x)
  | .empty, _ => .none
  | .extend rest bound value, x => by
    rw [Env.lookup?]
    split
    · exact .some (Value.Alike.refl value)
    · exact Env.lookup?_alike rest x

end

namespace Env.AlikeOn

variable {names more : List String} {env₁ env₂ : Env}

/-- Environments that have the same value for each of the names are alike on them. -/
theorem of_lookup?_eq (h : ∀ x ∈ names, env₁.lookup? x = env₂.lookup? x) :
    AlikeOn names env₁ env₂ := by
  intro x hx
  rw [← h x hx]
  exact env₁.lookup?_alike x

theorem mono (h : AlikeOn names env₁ env₂) (hsubset : ∀ x ∈ more, x ∈ names) :
    AlikeOn more env₁ env₂ :=
  fun x hx => h x (hsubset x hx)

/-- A name that is bound to alike values on both sides is alike there, and hides itself. -/
theorem extend {x : String} {v₁ v₂ : Value} (hv : v₁.Alike v₂)
    (h : ∀ y ∈ names, y ≠ x → Option.Rel Value.Alike (env₁.lookup? y) (env₂.lookup? y)) :
    AlikeOn names (env₁.extend x v₁) (env₂.extend x v₂) := by
  intro y hy
  rw [lookup?, lookup?]
  split
  · exact .some hv
  · next hne => exact h y hy fun heq => hne heq.symm

end Env.AlikeOn

theorem Code.mem_freeVars {code : Code} {x : String} :
    x ∈ code.freeVars ↔ x ∈ code.body.freeVars ∧ x ≠ code.param ∧ some x ≠ code.name? := by
  simp [freeVars]

/-- Alike closures have the same code. -/
theorem Value.Alike.exists_closure {env₁ : Env} {code : Code} {v : Value}
    (h : Value.Alike (.closure env₁ code) v) :
    ∃ env₂, v = .closure env₂ code ∧ Env.AlikeOn code.freeVars env₁ env₂ := by
  cases h with
  | closure h => exact ⟨_, rfl, h⟩

/-- The environments in which the bodies of alike closures are evaluated are alike on what the body
uses: the parameter and the function itself are bound on both sides. -/
theorem Env.AlikeOn.callEnv {env₁ env₂ : Env} {code : Code} {v₁ v₂ : Value}
    (h : Env.AlikeOn code.freeVars env₁ env₂) (hv : v₁.Alike v₂) :
    Env.AlikeOn code.body.freeVars (Evaluation.callEnv env₁ code v₁)
      (Evaluation.callEnv env₂ code v₂) := by
  obtain ⟨_ | name, param, body⟩ := code
  · refine .extend hv fun x hx hparam => ?_
    exact h x (Code.mem_freeVars.mpr ⟨hx, hparam, nofun⟩)
  · have hself : Env.AlikeOn (body.freeVars.filter (· ≠ param))
        (env₁.extend name (.closure env₁ ⟨some name, param, body⟩))
        (env₂.extend name (.closure env₂ ⟨some name, param, body⟩)) := by
      refine .extend (.closure h) fun x hx hname => h x (Code.mem_freeVars.mpr ?_)
      obtain ⟨hx, hparam⟩ := List.mem_filter.mp hx
      exact ⟨hx, of_decide_eq_true hparam, fun heq => hname (Option.some.inj heq)⟩
    exact .extend hv fun x hx hparam => hself x (List.mem_filter.mpr ⟨hx, decide_eq_true hparam⟩)

/-! ## Variables -/

/-- The value of a variable that can be derived is the one that is looked up. -/
theorem lookup?_of_derivable {env : Env} {x : String} {v : Value}
    (h : (Judgment.evalTo env (.var x) v).Derivable) : env.lookup? x = some v := by
  generalize hj : Judgment.evalTo env (.var x) v = j at h
  induction h using Judgment.Derivable.induction generalizing env with
  | rule rule premises conclusion hinstance _ ih =>
    subst hj
    cases hinstance with
    | var1 => simp [Env.lookup?]
    | var2 hne =>
      rw [Env.lookup?, if_neg hne]
      exact ih _ List.mem_cons_self rfl

theorem derivable_of_lookup? {env : Env} {x : String} {v : Value} (h : env.lookup? x = some v) :
    (Judgment.evalTo env (.var x) v).Derivable := by
  match env with
  | .empty => cases h
  | .extend rest bound value =>
    rw [Env.lookup?] at h
    split at h
    · next hbound =>
      cases h
      subst hbound
      exact Rule.Instance.var1.derivable (List.forall_mem_nil _)
    · next hne =>
      refine (Rule.Instance.var2 hne).derivable ?_
      simpa using derivable_of_lookup? h

/-! ## One rule -/

/-- What the judgment concludes carries over to every environment that is alike on the free
variables. -/
def Judgment.Scoped : Judgment → Prop
  | evalTo env₁ e v₁ => ∀ env₂, Env.AlikeOn e.freeVars env₁ env₂ →
      ∃ v₂, (evalTo env₂ e v₂).Derivable ∧ v₁.Alike v₂
  | primitive _ _ _ _ => True

section Scoped

variable {env : Env} {v w : Value}

theorem scoped_var {x : String} (h : env.lookup? x = some v) :
    (Judgment.evalTo env (.var x) v).Scoped := by
  intro env₂ halike
  have hrel := halike x List.mem_cons_self
  rw [h] at hrel
  cases hlookup : env₂.lookup? x with
  | none => rw [hlookup] at hrel; cases hrel
  | some w =>
    rw [hlookup] at hrel
    cases hrel with
    | some hv => exact ⟨w, derivable_of_lookup? hlookup, hv⟩

theorem scoped_binary {op : Operator} {l r : Expr} {m n : Int}
    (hl : (Judgment.evalTo env l (.int m)).Scoped) (hr : (Judgment.evalTo env r (.int n)).Scoped)
    (hv : (Judgment.primitive op m n v).Derivable) :
    (Judgment.evalTo env (.binary op l r) v).Scoped := by
  intro env₂ halike
  -- Values alike to integers are these integers, so the operation is the same one.
  obtain ⟨_, hl, ⟨⟩⟩ := hl env₂ (halike.mono fun x hx => List.mem_append_left _ hx)
  obtain ⟨_, hr, ⟨⟩⟩ := hr env₂ (halike.mono fun x hx => List.mem_append_right _ hx)
  exact ⟨v, Rule.Instance.operation.derivable (by simpa using ⟨hl, hr, hv⟩), .refl v⟩

theorem scoped_condTrue {c t e : Expr} (hc : (Judgment.evalTo env c (.bool true)).Scoped)
    (ht : (Judgment.evalTo env t v).Scoped) : (Judgment.evalTo env (.cond c t e) v).Scoped := by
  intro env₂ halike
  obtain ⟨_, hc, ⟨⟩⟩ := hc env₂ (halike.mono fun x hx => by simp [Expr.freeVars, hx])
  obtain ⟨v₂, ht, hv⟩ := ht env₂ (halike.mono fun x hx => by simp [Expr.freeVars, hx])
  exact ⟨v₂, Rule.Instance.condTrue.derivable (by simpa using ⟨hc, ht⟩), hv⟩

theorem scoped_condFalse {c t e : Expr} (hc : (Judgment.evalTo env c (.bool false)).Scoped)
    (he : (Judgment.evalTo env e v).Scoped) : (Judgment.evalTo env (.cond c t e) v).Scoped := by
  intro env₂ halike
  obtain ⟨_, hc, ⟨⟩⟩ := hc env₂ (halike.mono fun x hx => by simp [Expr.freeVars, hx])
  obtain ⟨v₂, he, hv⟩ := he env₂ (halike.mono fun x hx => by simp [Expr.freeVars, hx])
  exact ⟨v₂, Rule.Instance.condFalse.derivable (by simpa using ⟨hc, he⟩), hv⟩

theorem scoped_letIn {x : String} {e b : Expr} (he : (Judgment.evalTo env e w).Scoped)
    (hb : (Judgment.evalTo (env.extend x w) b v).Scoped) :
    (Judgment.evalTo env (.letIn x e b) v).Scoped := by
  intro env₂ halike
  obtain ⟨w₂, he, hw⟩ := he env₂ (halike.mono fun y hy => by simp [Expr.freeVars, hy])
  have hextended : Env.AlikeOn b.freeVars (env.extend x w) (env₂.extend x w₂) :=
    .extend hw fun y hy hne => halike y (by simp [Expr.freeVars, hy, hne])
  obtain ⟨v₂, hb, hv⟩ := hb _ hextended
  exact ⟨v₂, Rule.Instance.letIn.derivable (by simpa using ⟨he, hb⟩), hv⟩

theorem scoped_func {x : String} {b : Expr} :
    (Judgment.evalTo env (.func x b) (.closure env ⟨none, x, b⟩)).Scoped := by
  intro env₂ halike
  refine ⟨_, Rule.Instance.func.derivable (List.forall_mem_nil _), .closure fun y hy => halike y ?_⟩
  simpa [Expr.freeVars, Code.mem_freeVars] using hy

theorem scoped_letRec {f x : String} {e b : Expr}
    (hb : (Judgment.evalTo (env.extend f (.closure env ⟨some f, x, e⟩)) b v).Scoped) :
    (Judgment.evalTo env (.letRec f x e b) v).Scoped := by
  intro env₂ halike
  have hclosure : Value.Alike (.closure env ⟨some f, x, e⟩) (.closure env₂ ⟨some f, x, e⟩) := by
    refine .closure fun y hy => halike y ?_
    obtain ⟨hy, hparam, hname⟩ := Code.mem_freeVars.mp hy
    simp_all [Expr.freeVars]
  have hextended : Env.AlikeOn b.freeVars (env.extend f (.closure env ⟨some f, x, e⟩))
      (env₂.extend f (.closure env₂ ⟨some f, x, e⟩)) :=
    .extend hclosure fun y hy hne => halike y (by simp [Expr.freeVars, hy, hne])
  obtain ⟨v₂, hb, hv⟩ := hb _ hextended
  exact ⟨v₂, Rule.Instance.letRec.derivable (by simpa using hb), hv⟩

/-- The row of the rule table for the call of a closure, recursive or not. -/
theorem Rule.Instance.call {captured : Env} {code : Code} {f a : Expr} :
    (Evaluation.callRule code).Instance
      [.evalTo env f (.closure captured code), .evalTo env a w,
        .evalTo (Evaluation.callEnv captured code w) code.body v]
      (.evalTo env (.app f a) v) := by
  obtain ⟨_ | name, param, body⟩ := code
  · exact .app
  · exact .appRec

theorem scoped_app {captured : Env} {code : Code} {f a : Expr}
    (hf : (Judgment.evalTo env f (.closure captured code)).Scoped)
    (ha : (Judgment.evalTo env a w).Scoped)
    (hb : (Judgment.evalTo (Evaluation.callEnv captured code w) code.body v).Scoped) :
    (Judgment.evalTo env (.app f a) v).Scoped := by
  intro env₂ halike
  obtain ⟨_, hf, hclosure⟩ := hf env₂ (halike.mono fun x hx => List.mem_append_left _ hx)
  obtain ⟨captured₂, rfl, hcaptured⟩ := hclosure.exists_closure
  obtain ⟨w₂, ha, hw⟩ := ha env₂ (halike.mono fun x hx => List.mem_append_right _ hx)
  obtain ⟨v₂, hb, hv⟩ := hb _ (hcaptured.callEnv hw)
  exact ⟨v₂, Rule.Instance.call.derivable (by simpa using ⟨hf, ha, hb⟩), hv⟩

end Scoped

/-- Every rule carries over, if its premises do. -/
theorem Rule.Instance.scoped {rule : Rule} {premises : List Judgment} {conclusion : Judgment}
    (h : rule.Instance premises conclusion) (hd : ∀ p ∈ premises, p.Derivable)
    (hs : ∀ p ∈ premises, p.Scoped) : conclusion.Scoped := by
  have hconclusion := h.derivable hd
  cases h with try simp only [List.forall_mem_cons] at hd hs
  | int => exact fun _ _ => ⟨_, Rule.Instance.int.derivable (List.forall_mem_nil _), .int _⟩
  | bool => exact fun _ _ => ⟨_, Rule.Instance.bool.derivable (List.forall_mem_nil _), .bool _⟩
  | var1 | var2 => exact scoped_var (lookup?_of_derivable hconclusion)
  | operation => exact scoped_binary hs.1 hs.2.1 hd.2.2.1
  | condTrue => exact scoped_condTrue hs.1 hs.2.1
  | condFalse => exact scoped_condFalse hs.1 hs.2.1
  | letIn => exact scoped_letIn hs.1 hs.2.1
  | func => exact scoped_func
  | letRec => exact scoped_letRec hs.1
  | app | appRec => exact scoped_app hs.1 hs.2.1 hs.2.2.1
  | primitive => trivial

/-! ## Evaluation -/

/-- Whatever is derivable carries over to environments that are alike on the free variables. -/
theorem Judgment.Derivable.scoped {j : Judgment} (h : j.Derivable) : j.Scoped := by
  induction h using Judgment.Derivable.induction with
  | rule rule premises conclusion hinstance hp ih => exact hinstance.scoped hp ih

/-- Alike values are equal, unless they are closures. -/
theorem Value.Alike.eq {v w : Value} (h : v.Alike w)
    (hv : ∀ captured code, v ≠ .closure captured code) : v = w := by
  cases h with
  | int n => rfl
  | bool b => rfl
  | closure => exact absurd rfl (hv _ _)

/-- Evaluation to an integer or a truth value depends on the free variables of the expression alone:
under an environment with the same values for these, whatever else it holds, every limit that is
large enough gives the same result. -/
theorem evaluate_noninterference {e : Expr} {env₁ env₂ : Env}
    (hagree : ∀ x ∈ e.freeVars, env₁.lookup? x = env₂.lookup? x) {limit : Nat} {b : Value}
    (hb : ∀ captured code, b ≠ .closure captured code)
    (h : (evaluate limit env₁ e).map (·.value) = .ok b) :
    ∃ least, ∀ m, least ≤ m → (evaluate m env₂ e).map (·.value) = .ok b := by
  cases hev : evaluate limit env₁ e with
  | error err => rw [hev] at h; cases h
  | ok ev =>
    rw [hev] at h
    obtain rfl : ev.value = b := Except.ok.inj h
    obtain ⟨v, hv, halike⟩ := (derivable_of_evaluate hev).scoped env₂ (.of_lookup?_eq hagree)
    obtain rfl := halike.eq hb
    obtain ⟨least, hleast⟩ := evaluate_of_derivable hv
    refine ⟨least, fun m hm => ?_⟩
    obtain ⟨ev₂, hev₂, hvalue⟩ := hleast m hm
    rw [hev₂, ← hvalue]
    rfl

/-- The program `let f = fun y -> x + y in f 2`. Its closure captures the whole environment, of
which it uses only `x`. -/
def addToX : Expr :=
  .letIn "f" (.func "y" (.binary .add (.var "x") (.var "y"))) (.app (.var "f") (.int 2))

/-- The same result under `x = 1` and under `x = 9, y = 5, x = 1, f = true`. -/
theorem evaluate_noninterference_addToX :
    (evaluate 5 (.extend .empty "x" (.int 1)) addToX).map (·.value) = .ok (.int 3) ∧
      ∃ least, ∀ m, least ≤ m →
        (evaluate m (((Env.empty.extend "x" (.int 9)).extend "y" (.int 5)).extend "x" (.int 1)
          |>.extend "f" (.bool true)) addToX).map (·.value) = .ok (.int 3) := by
  have hvalue : (evaluate 5 (.extend .empty "x" (.int 1)) addToX).map (·.value) =
      .ok (.int 3) := by rfl
  exact ⟨hvalue, evaluate_noninterference (by decide) nofun hvalue⟩

end BigStep
