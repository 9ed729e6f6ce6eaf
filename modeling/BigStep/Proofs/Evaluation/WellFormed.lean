import BigStep.Proofs.Derivation.Validity
import BigStep.Proofs.Value.WellFormed

/-!
# Evaluation keeps everything well-formed

A valid derivation whose root asks for a well-formed expression in a well-formed environment does so
at every node, and every value in it is well-formed.

* `Judgment.Asks`, `Judgment.Answers`: the two halves of a judgment are well-formed.
* `Leads premises conclusion`: each premise asks well, once those before it have answered well, and
  the conclusion answers well once all of them have.
* `Rule.Instance.leads`: every rule leads from a conclusion that asks well. This is the only place
  where the rules are looked at one by one.
* `Derivation.Valid.asks`, `Derivation.Valid.answers`: the same for whole derivations.
-/

namespace BigStep

/-! ## Parts of a well-formed expression -/

namespace Expr.WellFormed

theorem binary_parts {op : Operator} {l r : Expr} (h : (Expr.binary op l r).WellFormed) :
    l.WellFormed ∧ r.WellFormed := by
  obtain ⟨⟨hl, hr⟩, hn⟩ := h
  rw [nesting_binary, Nat.max_le, nestingAt_le_iff, nestingAt_le_iff] at hn
  exact ⟨⟨hl, hn.1.1⟩, ⟨hr, hn.2.1⟩⟩

theorem app_parts {f a : Expr} (h : (Expr.app f a).WellFormed) :
    f.WellFormed ∧ a.WellFormed := by
  obtain ⟨⟨hf, ha⟩, hn⟩ := h
  rw [nesting_app, Nat.max_le, nestingAt_le_iff, nestingAt_le_iff] at hn
  exact ⟨⟨hf, hn.1.1⟩, ⟨ha, hn.2.1⟩⟩

theorem cond_parts {c t e : Expr} (h : (Expr.cond c t e).WellFormed) :
    c.WellFormed ∧ t.WellFormed ∧ e.WellFormed := by
  obtain ⟨⟨hc, ht, he⟩, hn⟩ := h
  rw [nesting] at hn
  exact ⟨⟨hc, by omega⟩, ⟨ht, by omega⟩, ⟨he, by omega⟩⟩

theorem letIn_parts {x : String} {v b : Expr} (h : (Expr.letIn x v b).WellFormed) :
    IsIdentifier x ∧ v.WellFormed ∧ b.WellFormed := by
  obtain ⟨⟨hx, hv, hb⟩, hn⟩ := h
  rw [nesting] at hn
  exact ⟨hx, ⟨hv, by omega⟩, ⟨hb, by omega⟩⟩

/-- The code that a function makes is well-formed. -/
theorem func_parts {x : String} {b : Expr} (h : (Expr.func x b).WellFormed) :
    Code.WellFormed ⟨none, x, b⟩ := by
  obtain ⟨⟨hx, hb⟩, hn⟩ := h
  rw [nesting] at hn
  have hbody : b.WellFormed := ⟨hb, by omega⟩
  exact ⟨fun name h => absurd h (Option.not_mem_none name), hx, b.text, hbody.parse_text⟩

/-- The name that a recursive binding binds, the code that it makes, and its body. -/
theorem letRec_parts {f x : String} {e b : Expr} (h : (Expr.letRec f x e b).WellFormed) :
    IsIdentifier f ∧ Code.WellFormed ⟨some f, x, e⟩ ∧ b.WellFormed := by
  obtain ⟨⟨hf, hx, he, hb⟩, hn⟩ := h
  rw [nesting] at hn
  have hcode : e.WellFormed := ⟨he, by omega⟩
  refine ⟨hf, ⟨?_, hx, e.text, hcode.parse_text⟩, ⟨hb, by omega⟩⟩
  rintro _ ⟨⟩
  exact hf

end Expr.WellFormed

/-! ## One rule -/

/-- What is asked for is well-formed. -/
def Judgment.Asks : Judgment → Prop
  | evalTo env e _ => env.WellFormed ∧ e.WellFormed
  | primitive _ _ _ _ => True

/-- The answer is well-formed. -/
def Judgment.Answers : Judgment → Prop
  | evalTo _ _ v => v.WellFormed
  | primitive _ _ _ v => v.WellFormed

/-- Each premise asks well if those before it answer well, and then the conclusion answers well. -/
def Leads : List Judgment → Judgment → Prop
  | [], conclusion => conclusion.Answers
  | premise :: later, conclusion => premise.Asks ∧ (premise.Answers → Leads later conclusion)

theorem Operator.Gives.wellFormed {op : Operator} {m n : Int} {v : Value} (h : op.Gives m n v) :
    v.WellFormed := by
  cases h with
  | add h | sub h | mul h => exact h
  | less => trivial

/-- Every rule leads from a conclusion that asks well. -/
theorem Rule.Instance.leads {rule : Rule} {premises : List Judgment} {conclusion : Judgment}
    (h : rule.Instance premises conclusion) (hc : conclusion.Asks) : Leads premises conclusion := by
  cases h with
  | int =>
    obtain ⟨-, ⟨hn, hle⟩, -⟩ := hc
    exact ⟨Int.le_trans (by decide) hn, hle⟩
  | bool => trivial
  | var1 => exact hc.1.2.2
  | var2 => exact ⟨⟨hc.1.1, hc.2⟩, fun hv => hv⟩
  | operation =>
    obtain ⟨hl, hr⟩ := hc.2.binary_parts
    exact ⟨⟨hc.1, hl⟩, fun _ => ⟨⟨hc.1, hr⟩, fun _ => ⟨trivial, fun hv => hv⟩⟩⟩
  | condTrue =>
    obtain ⟨hcond, ht, -⟩ := hc.2.cond_parts
    exact ⟨⟨hc.1, hcond⟩, fun _ => ⟨⟨hc.1, ht⟩, fun hv => hv⟩⟩
  | condFalse =>
    obtain ⟨hcond, -, he⟩ := hc.2.cond_parts
    exact ⟨⟨hc.1, hcond⟩, fun _ => ⟨⟨hc.1, he⟩, fun hv => hv⟩⟩
  | letIn =>
    obtain ⟨hx, he, hb⟩ := hc.2.letIn_parts
    exact ⟨⟨hc.1, he⟩, fun hw => ⟨⟨⟨hc.1, hx, hw⟩, hb⟩, fun hv => hv⟩⟩
  | func => exact ⟨hc.1, hc.2.func_parts⟩
  | app =>
    obtain ⟨hf, ha⟩ := hc.2.app_parts
    refine ⟨⟨hc.1, hf⟩, fun hclosure => ⟨⟨hc.1, ha⟩, fun hw => ?_⟩⟩
    obtain ⟨hcaptured, hcode⟩ := hclosure
    exact ⟨⟨⟨hcaptured, hcode.param, hw⟩, hcode.wellFormed_body⟩, fun hv => hv⟩
  | letRec =>
    obtain ⟨hf, hcode, hb⟩ := hc.2.letRec_parts
    exact ⟨⟨⟨hc.1, hf, hc.1, hcode⟩, hb⟩, fun hv => hv⟩
  | @appRec _ captured _ _ b f x =>
    obtain ⟨he, ha⟩ := hc.2.app_parts
    refine ⟨⟨hc.1, he⟩, fun hclosure => ⟨⟨hc.1, ha⟩, fun hw => ?_⟩⟩
    obtain ⟨hcaptured, hcode⟩ := hclosure
    -- The function is bound to itself, so the closure has to be well-formed once more.
    have hself : (captured.extend f (.closure captured ⟨some f, x, b⟩)).WellFormed :=
      ⟨hcaptured, hcode.name f rfl, hcaptured, hcode⟩
    exact ⟨⟨⟨hself, hcode.param, hw⟩, hcode.wellFormed_body⟩, fun hv => hv⟩
  | primitive hg => exact hg.wellFormed

/-! ## Whole derivations -/

/-- If each premise that asks well also answers well, then all of them do, and so does the
conclusion. -/
theorem Leads.all {premises : List Judgment} {conclusion : Judgment} (h : Leads premises conclusion)
    (hp : ∀ p ∈ premises, p.Asks → p.Answers) :
    conclusion.Answers ∧ ∀ p ∈ premises, p.Asks := by
  induction premises with
  | nil => exact ⟨h, nofun⟩
  | cons premise later ih =>
    rw [List.forall_mem_cons] at hp ⊢
    obtain ⟨hanswers, hlater⟩ := ih (h.2 (hp.1 h.1)) hp.2
    exact ⟨hanswers, h.1, hlater⟩

namespace Derivation

/-- The root answers well if it asks well. -/
theorem Valid.answers {d : Derivation} (hd : d.Valid) (hroot : d.judgment.Asks) :
    d.judgment.Answers := by
  induction d using induction with
  | node d ih =>
    obtain ⟨hinstance, hpremises⟩ := valid_iff.mp hd
    have hanswers : ∀ j ∈ d.premises.map (·.judgment), j.Asks → j.Answers :=
      List.forall_mem_map.mpr fun p hp => ih p hp (hpremises p hp)
    exact ((hinstance.leads hroot).all hanswers).1

/-- Every node asks well if the root does. -/
theorem Valid.asks {d : Derivation} (hd : d.Valid) (hroot : d.judgment.Asks) {node : Derivation}
    (hnode : node ∈ d.nodes) : node.judgment.Asks := by
  induction d using induction with
  | node d ih =>
    rcases mem_nodes.mp hnode with rfl | ⟨p, hp, hn⟩
    · exact hroot
    · obtain ⟨hinstance, hpremises⟩ := valid_iff.mp hd
      have hanswers : ∀ j ∈ d.premises.map (·.judgment), j.Asks → j.Answers :=
        List.forall_mem_map.mpr fun p hp => (hpremises p hp).answers
      obtain ⟨-, hasks⟩ := (hinstance.leads hroot).all hanswers
      exact ih p hp (hpremises p hp) (hasks _ (List.mem_map_of_mem hp)) hn

end Derivation

end BigStep
