import BigStep.Proofs.Text.Words
import BigStep.Proofs.Value.WellFormed

/-!
# Names in values and environments

* `Expr.names`, `Code.names`, `Value.names`, `Env.names`: all names, of variables and of bindings,
  at every level of captured environments.
* `Expr.Spellable.names` and the like: the names of what is spellable are identifiers. The converse
  fails, as nothing is said about literals.
* `Expr.newline_not_mem_text` and the like: with identifiers for names the canonical text is on one
  line. Nothing else is asked for.
* `Env.opens_text`: it does not begin with a blank.
-/

namespace BigStep

open Text

/-- The names in the expression, those of variables and those that are bound. -/
def Expr.names : Expr → List String
  | int _ => []
  | bool _ => []
  | var name => [name]
  | binary _ left right => left.names ++ right.names
  | cond condition thenBranch elseBranch =>
    condition.names ++ (thenBranch.names ++ elseBranch.names)
  | letIn name value body => name :: (value.names ++ body.names)
  | letRec name param functionBody body => name :: param :: (functionBody.names ++ body.names)
  | func param body => param :: body.names
  | app function argument => function.names ++ argument.names

/-- The names in the code. -/
def Code.names (code : Code) : List String :=
  code.name?.toList ++ code.param :: code.body.names

mutual

/-- The names in all closures of the value. -/
def Value.names : Value → List String
  | .int _ => []
  | .bool _ => []
  | .closure env code => env.names ++ code.names

/-- The names of the bindings and those in their values. -/
def Env.names : Env → List String
  | .empty => []
  | .extend rest name value => rest.names ++ name :: value.names

end

/-! ## Names of what is spellable -/

theorem Expr.Spellable.names {e : Expr} (h : e.Spellable) :
    ∀ name ∈ e.names, IsIdentifier name := by
  induction e with
  | int n | bool b => nofun
  | var name => exact List.forall_mem_singleton.mpr h
  | binary op l r ihl ihr => exact List.forall_mem_append.mpr ⟨ihl h.1, ihr h.2⟩
  | app f a ihf iha => exact List.forall_mem_append.mpr ⟨ihf h.1, iha h.2⟩
  | cond c t e ihc iht ihe =>
    simp only [Expr.names, List.forall_mem_append]
    exact ⟨ihc h.1, iht h.2.1, ihe h.2.2⟩
  | letIn x v b ihv ihb =>
    simp only [Expr.names, List.forall_mem_append, List.forall_mem_cons]
    exact ⟨h.1, ihv h.2.1, ihb h.2.2⟩
  | func x b ihb => exact List.forall_mem_cons.mpr ⟨h.1, ihb h.2⟩
  | letRec f x e b ihe ihb =>
    simp only [Expr.names, List.forall_mem_append, List.forall_mem_cons]
    exact ⟨h.1, h.2.1, ihe h.2.2.1, ihb h.2.2.2⟩

theorem Code.Spellable.names {c : Code} (h : c.Spellable) :
    ∀ name ∈ c.names, IsIdentifier name := by
  simp only [Code.names, List.forall_mem_append, List.forall_mem_cons, Option.mem_toList]
  exact ⟨h.name, h.param, h.body.names⟩

mutual

theorem Value.names_of_spellable : (v : Value) → v.Spellable → ∀ name ∈ v.names, IsIdentifier name
  | .int _, _ => nofun
  | .bool _, _ => nofun
  | .closure env _, h => List.forall_mem_append.mpr ⟨env.names_of_spellable h.1, h.2.names⟩

theorem Env.names_of_spellable : (env : Env) → env.Spellable →
    ∀ name ∈ env.names, IsIdentifier name
  | .empty, _ => nofun
  | .extend rest _ v, h => List.forall_mem_append.mpr ⟨rest.names_of_spellable h.1,
    List.forall_mem_cons.mpr ⟨h.2.1, v.names_of_spellable h.2.2⟩⟩

end

/-! ## Texts on one line -/

theorem newline_not_mem_of_isInk {cs : List Char} (h : cs.all isInk = true) : '\n' ∉ cs :=
  not_mem_of_isInk h rfl

theorem IsIdentifier.newline_not_mem {name : String} (h : IsIdentifier name) :
    '\n' ∉ name.toList := newline_not_mem_of_isInk h.all_isInk

theorem Expr.newline_not_mem_textAt {e : Expr} (h : '\n' ∉ e.text.toList) (k : Nat) :
    '\n' ∉ (e.textAt k).toList := by
  by_cases hk : e.precedence < k <;> simpa [textAt, parenthesize, hk] using h

theorem Expr.newline_not_mem_text {e : Expr} (h : ∀ name ∈ e.names, IsIdentifier name) :
    '\n' ∉ e.text.toList := by
  induction e with simp only [names, List.forall_mem_append, List.forall_mem_cons] at h
  | int n => exact newline_not_mem_of_isInk (all_isInk_write n)
  | bool b => cases b <;> decide
  | var name => exact h.1.newline_not_mem
  | binary op l r ihl ihr =>
    have hop : '\n' ∉ op.symbol.toList := by cases op <;> decide
    simp [text_binary, hop, newline_not_mem_textAt (ihl h.1), newline_not_mem_textAt (ihr h.2)]
  | app f a ihf iha =>
    simp [text_app, newline_not_mem_textAt (ihf h.1), newline_not_mem_textAt (iha h.2)]
  | cond c t e ihc iht ihe => simp [text, ihc h.1, iht h.2.1, ihe h.2.2]
  | letIn x v b ihv ihb => simp [text, h.1.newline_not_mem, ihv h.2.1, ihb h.2.2]
  | func x b ihb => simp [text, h.1.newline_not_mem, ihb h.2]
  | letRec f x e b ihe ihb =>
    simp [text, h.1.newline_not_mem, h.2.1.newline_not_mem, ihe h.2.2.1, ihb h.2.2.2]

theorem Code.newline_not_mem_text {c : Code} (h : ∀ name ∈ c.names, IsIdentifier name) :
    '\n' ∉ c.text.toList := by
  simp only [names, List.forall_mem_append, List.forall_mem_cons, Option.mem_toList] at h
  obtain ⟨hname, hparam, hbody⟩ := h
  have hbody := Expr.newline_not_mem_text hbody
  obtain ⟨_ | name, param, body⟩ := c
  · simp [text, hparam.newline_not_mem, hbody]
  · simp [text, (hname name rfl).newline_not_mem, hparam.newline_not_mem, hbody]

mutual

theorem Value.newline_not_mem_text : (v : Value) → (∀ name ∈ v.names, IsIdentifier name) →
    '\n' ∉ v.text.toList
  | .int n, _ => newline_not_mem_of_isInk (all_isInk_write n)
  | .bool true, _ => by decide
  | .bool false, _ => by decide
  | .closure env code, h => by
    simp only [Value.names, List.forall_mem_append] at h
    simp [Value.text, env.newline_not_mem_text h.1, Code.newline_not_mem_text h.2]

theorem Env.newline_not_mem_text : (env : Env) → (∀ name ∈ env.names, IsIdentifier name) →
    '\n' ∉ env.text.toList
  | .empty, _ => by decide
  | .extend .empty name v, h => by
    simp only [Env.names, List.forall_mem_append, List.forall_mem_cons] at h
    simp [Env.text, h.2.1.newline_not_mem, v.newline_not_mem_text h.2.2]
  | .extend (.extend rest older w) name v, h => by
    obtain ⟨hrest, hlast⟩ := List.forall_mem_append.mp h
    obtain ⟨hname, hv⟩ := List.forall_mem_cons.mp hlast
    have hrest := (Env.extend rest older w).newline_not_mem_text hrest
    simp [Env.text, hrest, hname.newline_not_mem, v.newline_not_mem_text hv]

end

/-- Bindings begin with a name. -/
theorem Env.opens_text : (env : Env) → env ≠ .empty → (∀ name ∈ env.names, IsIdentifier name) →
    Opens env.text.toList
  | .empty, hne, _ => absurd rfl hne
  | .extend .empty name v, _, h => by
    have hname : IsIdentifier name := h name (by simp [Env.names])
    rw [Env.text_extend_empty, bindingText]
    exact hname.tidy.opens.append _
  | .extend (.extend rest older w) name v, _, h => by
    have hne : Env.extend rest older w ≠ .empty := by simp
    have hrest := (Env.extend rest older w).opens_text hne (List.forall_mem_append.mp h).1
    rw [Env.text_extend hne]
    exact hrest.append _

end BigStep
