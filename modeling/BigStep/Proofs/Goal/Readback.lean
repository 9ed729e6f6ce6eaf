import BigStep.Proofs.Goal.Replay

/-!
# Reading results back

The value of a program, in its canonical text, can be given to another program in the environment,
unless closures stand more than 200 deep in it.

* `wellFormed_of_derive`: the value of a goal is well-formed.
* `decode_value_of_derive`: what reading its text gives, alone and in an environment.
* `exists_unreadable_value`: a short program whose value cannot be read. The limit on nested rule
  applications does not bound how deep closures stand, since a function can be applied to its own
  result again and again.
-/

namespace BigStep.Goal

open Decode

/-- The value of a goal is well-formed. -/
theorem wellFormed_of_derive {goal : Goal} {limit : Nat} {ev : Evaluation}
    (h : goal.derive limit = .ok ev) : ev.value.WellFormed := by
  obtain ⟨v, d, steps⟩ := ev
  obtain ⟨env, e, hread, hvalid, hroot, -⟩ := derive_eq_ok_iff.mp ⟨steps, h⟩
  have hasks : d.judgment.Asks := by
    rw [hroot]
    exact wellFormed_of_read hread
  have hanswers := hvalid.answers hasks
  rw [hroot] at hanswers
  exact hanswers

/-- The value of a goal is read back from its canonical text if closures stand at most 200 deep in
it; otherwise that is the error. Likewise for an environment to which it is added under a name. -/
theorem decode_value_of_derive {limit : Nat} {source : String} {ev : Evaluation}
    (h : (ofSource source).derive limit = .ok ev) :
    (Value.decode ev.value.text =
      if ev.value.closureDepth ≤ 200 then .ok ev.value else .error (.nestingTooDeep 200)) ∧
    ∀ (text name : String) (env : Env), Env.decode text = .ok env → IsIdentifier name →
      Env.decode (env.extend name ev.value).text =
        if ev.value.closureDepth ≤ 200 then .ok (env.extend name ev.value)
        else .error (.nestingTooDeep 200) := by
  have hvalue := wellFormed_of_derive h
  refine ⟨hvalue.decode_text, fun text name env htext hname => ?_⟩
  obtain ⟨henv, hdepth⟩ := Env.wellFormed_of_decode htext
  have hextend : (env.extend name ev.value).WellFormed := ⟨henv, hname, hvalue⟩
  rw [hextend.decode_text, Env.closureDepth]
  split
  · next hle => exact within_of_le (Nat.max_le.mpr ⟨hdepth, hle⟩) _
  · next hgt =>
    have hdeep : 200 < ev.value.closureDepth := Nat.lt_of_not_le hgt
    exact within_of_lt (Nat.lt_of_lt_of_le hdeep (Nat.le_max_right _ _)) _

/-- The goal derives, and the test holds of what it gives. -/
theorem exists_of_derive {goal : Goal} {limit : Nat} {p : Evaluation → Bool}
    (h : (goal.derive limit).toOption.any p = true) : ∃ ev, goal.derive limit = .ok ev ∧ p ev := by
  cases hderive : goal.derive limit with
  | error e => simp [hderive, Except.toOption] at h
  | ok ev => exact ⟨ev, rfl, by simpa [hderive, Except.toOption] using h⟩

/-- A closure inside a closure is read back, alone and as a second binding. -/
theorem decode_value_of_derive_nested :
    ∃ ev, (ofSource "let k = fun x -> fun y -> x in k (k 0)").derive 128 = .ok ev ∧
      ev.value.text = "(x = (x = 0)[fun y -> x])[fun y -> x]" ∧
      Value.decode ev.value.text = .ok ev.value ∧
      Env.decode ((Env.empty.extend "z" (.int 1)).extend "v" ev.value).text =
        .ok ((Env.empty.extend "z" (.int 1)).extend "v" ev.value) := by
  have hnested :
      ((ofSource "let k = fun x -> fun y -> x in k (k 0)").derive 128).toOption.any (fun ev =>
        ev.value.text == "(x = (x = 0)[fun y -> x])[fun y -> x]" && ev.value.closureDepth == 2) =
          true := by
    decide +kernel
  obtain ⟨ev, hev, hp⟩ := exists_of_derive hnested
  rw [Bool.and_eq_true, beq_iff_eq, beq_iff_eq] at hp
  have hz : (Env.empty.extend "z" (.int 1)).WellFormed :=
    ⟨trivial, by decide, show Integer.InRange 1 by decide⟩
  obtain ⟨hvalue, henv⟩ := decode_value_of_derive hev
  rw [hp.2] at hvalue henv
  exact ⟨ev, hev, hp.1, hvalue, henv _ "v" _ hz.decode_text (by decide)⟩

/-- A program that makes six times six times six functions, each inside the next. -/
def towerSource : String :=
  "let k = fun x -> fun y -> x in " ++
  "let s = fun f -> fun x -> f (f (f (f (f (f x))))) in s (s (s k)) 0"

/-- The value of a program that stays within the default limit need not be read back. -/
theorem exists_unreadable_value :
    ∃ ev, (ofSource towerSource).derive Evaluation.defaultLimit = .ok ev ∧
      ev.value.closureDepth = 216 ∧
      Value.decode ev.value.text = .error (.nestingTooDeep 200) ∧
      Env.decode (Env.empty.extend "v" ev.value).text = .error (.nestingTooDeep 200) := by
  have htower : ((ofSource towerSource).derive Evaluation.defaultLimit).toOption.any
      (fun ev => ev.value.closureDepth == 216) = true := by
    decide +kernel
  obtain ⟨ev, hev, hp⟩ := exists_of_derive htower
  have hdepth : ev.value.closureDepth = 216 := beq_iff_eq.mp hp
  have hvalue := wellFormed_of_derive hev
  have hextend : (Env.empty.extend "v" ev.value).WellFormed := ⟨trivial, by decide, hvalue⟩
  refine ⟨ev, hev, hdepth, ?_, ?_⟩
  · rw [hvalue.decode_text, hdepth]
    rfl
  · rw [hextend.decode_text, Env.closureDepth, hdepth]
    rfl

end BigStep.Goal
