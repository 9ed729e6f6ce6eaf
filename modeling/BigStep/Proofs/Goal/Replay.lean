import BigStep.Goal
import BigStep.Proofs.Evaluation.Agreement
import BigStep.Proofs.Evaluation.WellFormed
import BigStep.Proofs.Value.RoundTrip

/-!
# Replaying the judgments of a derivation

What a judgment prints before `evalto` is itself a goal, and deriving it gives back the part of the
derivation from which the judgment was printed.

* `read_goalText`: a well-formed goal is read back from its text.
* `derive_eq_ok_iff`: a goal is derived by reading it and finding a valid derivation.
* `derive_goalText_of_node`: the replay, for every node of every derivation.
-/

namespace BigStep

namespace Goal

open Text

/-! ## Reading the text of a goal -/

theorem cutTurnstile?_cons {c : Char} (h : c ≠ '|') (cs : List Char) :
    cutTurnstile? (c :: cs) =
      (cutTurnstile? cs).map fun (before, after) => (c :: before, after) := by
  rw [cutTurnstile?]
  intro after hc
  exact absurd hc h

/-- A text without bars is what stands before the first turnstile. -/
theorem cutTurnstile?_append {cs : List Char} (h : '|' ∉ cs) (rest : List Char) :
    cutTurnstile? (cs ++ '|' :: '-' :: rest) = some (cs, rest) := by
  induction cs with
  | nil => rfl
  | cons c cs ih =>
    rw [List.mem_cons, not_or] at h
    rw [List.cons_append, cutTurnstile?_cons (Ne.symm h.1), ih h.2]
    rfl

/-- The two sides of a well-formed goal are cut apart and trimmed. -/
theorem ofSource_goalText {env : Env} {e : Expr} (henv : env.WellFormed) (he : e.WellFormed) :
    ofSource (Judgment.goalText env e) = ⟨env.text, e.text⟩ := by
  have hexpr : trim (' ' :: e.text.toList) = e.text.toList :=
    (Expr.tidy_text he.spellable).trim_behind [' '] rfl
  by_cases hempty : env = .empty
  · subst hempty
    have hcut : cutTurnstile? (Judgment.goalText .empty e).toList =
        some ([], ' ' :: e.text.toList) := by
      simp [Judgment.goalText, Env.isEmpty, cutTurnstile?]
    rw [ofSource, hcut]
    simp only [hexpr, String.ofList_toList]
    rfl
  · have htidy := env.tidy_text henv hempty
    have hbar : '|' ∉ env.text.toList ++ [' '] := by
      rw [List.mem_append, not_or]
      exact ⟨htidy.balanced.not_mem_bar, by decide⟩
    have hbinding : env.isEmpty = false := by
      cases env with
      | empty => exact absurd rfl hempty
      | extend => rfl
    have hcut : cutTurnstile? (Judgment.goalText env e).toList =
        some (env.text.toList ++ [' '], ' ' :: e.text.toList) := by
      rw [← cutTurnstile?_append hbar]
      simp [Judgment.goalText, hbinding]
    rw [ofSource, hcut]
    simp only [htidy.trim_before [' '] rfl, hexpr, String.ofList_toList]

/-- A well-formed goal is read back from its text, if its closures do not stand too deep. -/
theorem read_goalText {env : Env} {e : Expr} (henv : env.WellFormed) (he : e.WellFormed)
    (hdepth : env.closureDepth ≤ Decode.maxClosureDepth) :
    (ofSource (Judgment.goalText env e)).read = .ok (env, e) := by
  rw [ofSource_goalText henv he, read]
  simp only [henv.decode_text, Decode.within_of_le hdepth, he.parse_text]
  rfl

/-- Whatever is read is well-formed. -/
theorem wellFormed_of_read {goal : Goal} {env : Env} {e : Expr} (h : goal.read = .ok (env, e)) :
    env.WellFormed ∧ e.WellFormed := by
  unfold read at h
  cases henv : Env.decode goal.env with
  | error error =>
    rw [henv] at h
    cases h
  | ok decoded =>
    cases he : Expr.parse goal.expr with
    | error error =>
      rw [henv, he] at h
      cases h
    | ok parsed =>
      rw [henv, he] at h
      cases h
      exact ⟨(Env.wellFormed_of_decode henv).1, Expr.wellFormed_of_parse he⟩

/-! ## Deriving -/

theorem derive_of_read {goal : Goal} {env : Env} {e : Expr} (h : goal.read = .ok (env, e))
    (limit : Nat) : goal.derive limit = (evaluate limit env e).mapError .runtime := by
  rw [derive, h]
  rfl

/-- A goal is derived just if it can be read and has a valid derivation within the limit. -/
theorem derive_eq_ok_iff {goal : Goal} {limit : Nat} {v : Value} {d : Derivation} :
    (∃ steps, goal.derive limit = .ok ⟨v, d, steps⟩) ↔
      ∃ env e, goal.read = .ok (env, e) ∧ d.Valid ∧ d.judgment = .evalTo env e v ∧
        d.height ≤ limit := by
  cases hread : goal.read with
  | error error => simp [derive, hread, bind, Except.bind]
  | ok read =>
    obtain ⟨env, e⟩ := read
    have hmap (ev : Evaluation) : goal.derive limit = .ok ev ↔ evaluate limit env e = .ok ev := by
      rw [derive_of_read hread]
      cases evaluate limit env e <;> constructor <;> intro h <;> cases h <;> rfl
    simp only [hmap, evaluate_eq_ok_iff]
    constructor
    · intro h
      exact ⟨env, e, rfl, h⟩
    · rintro ⟨_, _, ⟨⟩, h⟩
      exact h

/-- What any evaluation in a derivation prints before `evalto`, unless closures stand deeper than
200 in its environment, can be given as a source of its own. With the same limit it has the same
value, and its derivation is the part of the derivation that it was printed from. -/
theorem derive_goalText_of_node {limit : Nat} {source : String} {ev : Evaluation}
    (h : (ofSource source).derive limit = .ok ev) {node : Derivation}
    (hnode : node ∈ ev.derivation.nodes) {env : Env} {e : Expr} {v : Value}
    (hj : node.judgment = .evalTo env e v) (hdepth : env.closureDepth ≤ 200) :
    node.judgment.text = Judgment.goalText env e ++ " evalto " ++ v.text ∧
      ∃ steps, (ofSource (Judgment.goalText env e)).derive limit = .ok ⟨v, node, steps⟩ := by
  obtain ⟨root, d, steps⟩ := ev
  obtain ⟨env₀, e₀, hread, hvalid, hroot, hheight⟩ := derive_eq_ok_iff.mp ⟨steps, h⟩
  have hasks : node.judgment.Asks := by
    refine hvalid.asks ?_ hnode
    rw [hroot]
    exact wellFormed_of_read hread
  rw [hj] at hasks
  obtain ⟨henv, he⟩ := hasks
  refine ⟨by rw [hj]; rfl, derive_eq_ok_iff.mpr ⟨env, e, read_goalText henv he hdepth, ?_⟩⟩
  exact ⟨hvalid.of_mem_nodes hnode, hj,
    Nat.le_trans (Derivation.height_le_of_mem_nodes hnode) hheight⟩

/-- The function body `if x < 1 then x else f 0`. -/
def sampleBody : Expr :=
  .cond (.binary .less (.var "x") (.int 1)) (.var "x") (.app (.var "f") (.int 0))

/-- The environment in which the body is evaluated when `f` is called with `1`. -/
def sampleEnv : Env :=
  (Env.empty.extend "f" (.closure .empty ⟨some "f", "x", sampleBody⟩)).extend "x" (.int 1)

/-- The body of a recursive function, in the environment of a call, is replayed with the limit of
the program. -/
theorem derive_goalText_of_recursive_call :
    ∃ ev node steps,
      (ofSource "let rec f = fun x -> if x < 1 then x else f 0 in f 1").derive 7 = .ok ev ∧
      node ∈ ev.derivation.nodes ∧ node.judgment = .evalTo sampleEnv sampleBody (.int 0) ∧
      Judgment.goalText sampleEnv sampleBody =
        "f = ()[rec f = fun x -> if x < 1 then x else f 0], x = 1 |- if x < 1 then x else f 0" ∧
      (ofSource (Judgment.goalText sampleEnv sampleBody)).derive 7 =
        .ok ⟨.int 0, node, steps⟩ := by
  have hcall :
      (derive 7 (ofSource "let rec f = fun x -> if x < 1 then x else f 0 in f 1")).toOption.bind
        (fun ev => ev.derivation.nodes[4]?.map (·.judgment)) =
          some (.evalTo sampleEnv sampleBody (.int 0)) := by
    decide +kernel
  obtain ⟨ev, hev, hnode⟩ := Option.bind_eq_some_iff.mp hcall
  obtain ⟨node, hget, hj⟩ := Option.map_eq_some_iff.mp hnode
  have hderive :
      derive 7 (ofSource "let rec f = fun x -> if x < 1 then x else f 0 in f 1") = .ok ev := by
    revert hev
    cases derive 7 _ <;> simp [Except.toOption]
  have hmem := List.mem_of_getElem? hget
  obtain ⟨-, steps, hreplay⟩ := derive_goalText_of_node hderive hmem hj (by decide)
  exact ⟨ev, node, steps, hderive, hmem, hj, by decide +kernel, hreplay⟩

end Goal

end BigStep
