import BigStep.Proofs.Token.Munch
import BigStep.Proofs.Value.WellFormed
import BigStep.Value.Decode

/-!
# Printing and decoding values and environments

Each reader is followed on the canonical text of what it reads, and its result is `within` the room
that there is for closures: the value itself, or the error that they stand too deep.

* `isIdentifier_trim_iff`: a name is tested as the lexer would read it.
* `closureForm_text`, `binding_append`, `environment_text`: one level of the canonical text, read by
  any reader of the level inside.
* `valueForm_text`, `foldlM_parts`: all levels, by induction on the value and the environment.
* `valueForm_sound`, `environment_sound`: whatever is read, from any text, is well-formed.
* `decode_text_iff_wellFormed`: the round trip.
-/

namespace BigStep

namespace Decode

open Text

/-! ## Identifiers -/

theorem kind_ofWord_iff {word : String} : (Token.ofWord word).kind = .ident ↔ word ∉ reserved := by
  constructor
  · intro h hr
    simp only [reserved, List.mem_cons, List.not_mem_nil, or_false] at hr
    rcases hr with rfl | rfl | rfl | rfl | rfl | rfl | rfl | rfl | rfl <;> cases h
  · intro h
    rw [Token.ofWord_of_not_mem h]
    rfl

theorem isIdentifier_iff {cs : List Char} :
    isIdentifier cs = true ↔ IsIdentifier (String.ofList cs) := by
  cases cs with
  | nil => simp [isIdentifier, IsIdentifier]
  | cons c cs =>
    simp only [isIdentifier, IsIdentifier, Bool.and_eq_true, decide_eq_true_eq, kind_ofWord_iff,
      String.toList_ofList, List.head?_cons, Option.any_some, List.all_cons, and_assoc]
    constructor
    · rintro ⟨hc, hcs, hword⟩
      exact ⟨hc, isAlphanum_of_isAlpha hc, hcs, hword⟩
    · rintro ⟨hc, -, hcs, hword⟩
      exact ⟨hc, hcs, hword⟩

theorem isBlank_of_isLayout {c : Char} (h : isLayout c = true) : isBlank c = true := by
  simp only [isLayout, Bool.or_eq_true, beq_iff_eq] at h
  rcases h with (((rfl | rfl) | rfl) | rfl) | rfl <;> decide

theorem all_isBlank_of_spells_nil {cs : List Char} (h : Spells cs []) : cs.all isBlank = true := by
  generalize hts : ([] : List Token) = ts at h
  induction h with
  | nil => rfl
  | layout hc _ ih => simp [isBlank_of_isLayout hc, ih hts]
  | token => cases hts

/-- A text with one name as its only token is that name with blanks around it. -/
theorem padded_of_spells_ident {cs : List Char} {name : String} (h : Spells cs [.ident name]) :
    Padded name.toList cs := by
  generalize hts : [Token.ident name] = ts at h
  induction h with
  | nil => cases hts
  | @layout c cs _ hc _ ih =>
    have hfront : [c].all isBlank = true := by simp [isBlank_of_isLayout hc]
    exact (ih hts).trans (padded_behind hfront cs)
  | @token c cs _ _ hc ht hrest _ =>
    cases hts
    have hblank := all_isBlank_of_spells_nil hrest
    rw [← lexeme_append_rest c cs, (readItem_of_ok ht).1]
    exact padded_before hblank _

/-- A text without blanks at its ends is an identifier just if the lexer finds one name in it and
nothing else. -/
theorem isIdentifier_trim_iff {cs : List Char} :
    isIdentifier (trim cs) = true ↔ ∃ name start stop,
      tokenize (String.ofList (trim cs)) = .ok [⟨.ident name, start⟩, ⟨.eof, stop⟩] := by
  rw [isIdentifier_iff]
  constructor
  · intro h
    have hspells := Spells.ident h boundary_nil .nil
    rw [List.append_nil] at hspells
    obtain ⟨located, htokenize, htokens⟩ := tokenize_of_spells hspells
    obtain ⟨⟨_, start⟩, later, rfl, rfl, hlater⟩ := List.map_eq_cons_iff.mp htokens
    obtain ⟨⟨_, stop⟩, rfl, rfl⟩ := List.map_eq_singleton_iff.mp hlater
    exact ⟨_, start, stop, htokenize⟩
  · rintro ⟨name, start, stop, h⟩
    obtain ⟨ts, hts, hspells⟩ := spells_of_tokenize h
    obtain rfl : [.ident name] = ts := List.append_cancel_right hts
    rw [String.toList_ofList] at hspells
    have hname : IsIdentifier name := hspells.genuine (.ident name) (List.mem_singleton.mpr rfl)
    have hpadded := (padded_of_spells_ident hspells).trans (padded_trim cs)
    rwa [hpadded.trim_eq hname.tidy.opens hname.tidy.ends, String.ofList_toList]

/-! ## Reading canonical texts -/

/-- The result of reading something of the given depth with the given room. -/
def within {α : Type} (room depth : Nat) (a : α) : Except DecodeError α :=
  if depth ≤ room then .ok a else .error (.nestingTooDeep maxClosureDepth)

theorem within_of_le {α : Type} {room depth : Nat} (h : depth ≤ room) (a : α) :
    within room depth a = .ok a := if_pos h

theorem within_of_lt {α : Type} {room depth : Nat} (h : room < depth) (a : α) :
    within room depth a = .error (.nestingTooDeep maxClosureDepth) := if_neg (by omega)

theorem within_map {α β : Type} (room depth : Nat) (a : α) (f : α → β) :
    (within room depth a).map f = within room depth (f a) := by
  unfold within
  split <;> rfl

theorem within_bind {α β γ : Type} (room d₁ d₂ : Nat) (a : α) (b : β) (f : α → β → γ) :
    (within room d₁ a >>= fun a => (within room d₂ b).map (f a)) =
      within room (max d₁ d₂) (f a b) := by
  by_cases h₁ : d₁ ≤ room
  · by_cases h₂ : d₂ ≤ room
    · have hmax : max d₁ d₂ ≤ room := by omega
      rw [within_of_le h₁, within_of_le h₂, within_of_le hmax]
      rfl
    · have hmax : room < max d₁ d₂ := by omega
      rw [within_of_le h₁, within_of_lt (by omega), within_of_lt hmax]
      rfl
  · have hmax : room < max d₁ d₂ := by omega
    rw [within_of_lt (by omega), within_of_lt hmax]
    rfl

theorem valueForm_int {n : Int} {text : List Char} (hread : Integer.ofText? (trim text) = some n)
    (closure : List Char → Except DecodeError Value) : valueForm closure text = .ok (.int n) := by
  have htrue : trim text ≠ ['t', 'r', 'u', 'e'] := fun h => by rw [h] at hread; cases hread
  have hfalse : trim text ≠ ['f', 'a', 'l', 's', 'e'] := fun h => by rw [h] at hread; cases hread
  have hopen : (trim text).head? ≠ some '(' := fun h => by
    obtain ⟨cs, hcs⟩ := List.head?_eq_some_iff.mp h
    rw [hcs] at hread
    cases hread
  simp only [valueForm, htrue, hfalse, hopen, hread, if_false]

theorem valueForm_bool {b : Bool} {text : List Char}
    (htext : trim text = (Value.bool b).text.toList)
    (closure : List Char → Except DecodeError Value) : valueForm closure text = .ok (.bool b) := by
  cases b <;> simp [valueForm, htext, Value.text]

theorem valueForm_closure {env : Env} {code : Code} {text : List Char}
    (htext : trim text = (Value.closure env code).text.toList)
    (closure : List Char → Except DecodeError Value) :
    valueForm closure text = closure (Value.closure env code).text.toList := by
  simp [valueForm, htext, Value.text]

/-- A text of two spans is read by reading what stands inside them. -/
theorem closureForm_of_spans {text envText rest codeText : List Char}
    (henv : span? '(' ')' (trim text) = some (envText, rest))
    (hcode : span? '[' ']' (trimStart rest) = some (codeText, []))
    (captured : List Char → Except DecodeError Env) {code : Code}
    (hparse : Code.parse (String.ofList codeText) = .ok code) :
    closureForm captured text = (captured envText).map (Value.closure · code) := by
  have hhead : (trimStart rest).head? = some '[' := by
    cases hrest : trimStart rest with
    | nil => simp [hrest, span?] at hcode
    | cons c cs =>
      by_cases hc : c = '['
      · rw [hc]
        rfl
      · simp [hrest, span?, hc] at hcode
  have htail : trim ([] : List Char) = [] := rfl
  simp only [closureForm, balancedSpan, henv, hcode, hhead, htail, hparse, bind, Except.bind,
    ne_eq, not_true, if_false, List.isEmpty_nil, Bool.not_true, Bool.false_eq_true]
  cases captured envText <;> rfl

/-- A closure is read by reading the two texts in brackets. -/
theorem closureForm_text {env : Env} {code : Code} (henv : env.WellFormed)
    (hcode : code.WellFormed) (captured : List Char → Except DecodeError Env) :
    closureForm captured (Value.closure env code).text.toList =
      (captured env.text.toList).map (Value.closure · code) := by
  have htext : (Value.closure env code).text.toList =
      '(' :: env.text.toList ++ ')' :: ('[' :: code.text.toList ++ [']']) := by
    simp [Value.text]
  have henvSpan : span? '(' ')' (trim (Value.closure env code).text.toList) =
      some (env.text.toList, '[' :: code.text.toList ++ [']']) := by
    rw [((Value.closure env code).tidy_text ⟨henv, hcode⟩).trim_eq, htext]
    exact span?_enclose (.inl ⟨rfl, rfl⟩) henv.balanced_text _
  have hcodeSpan : span? '[' ']' (trimStart ('[' :: code.text.toList ++ [']'])) =
      some (code.text.toList, []) :=
    span?_enclose (.inr ⟨rfl, rfl⟩) hcode.tidy_text.balanced []
  have hparse : Code.parse (String.ofList code.text.toList) = .ok code := by
    rw [String.ofList_toList]
    exact hcode.parse_text
  exact closureForm_of_spans henvSpan hcodeSpan captured hparse

/-- A binding is read by reading its value. -/
theorem binding_append {front gap : List Char} (hfront : front.all isBlank = true)
    (hgap : gap.all isBlank = true) {name : String} (hname : IsIdentifier name) (rest : List Char)
    (env : Env) (value : List Char → Except DecodeError Value) :
    binding value env (front ++ (name.toList ++ (gap ++ '=' :: rest))) =
      (value rest).map (env.extend name) := by
  have hcut : cut? '=' (front ++ (name.toList ++ (gap ++ '=' :: rest))) =
      some (front ++ (name.toList ++ gap), rest) := by
    have hnot : '=' ∉ front ++ (name.toList ++ gap) := by
      simp only [List.mem_append, not_or]
      exact ⟨fun h => absurd (List.all_eq_true.mp hfront _ h) (by decide),
        fun h => absurd (List.all_eq_true.mp hname.2.1 _ h) (by decide),
        fun h => absurd (List.all_eq_true.mp hgap _ h) (by decide)⟩
    rw [← cut?_append hnot]
    simp
  have htrim : trim (front ++ (name.toList ++ gap)) = name.toList :=
    trim_append hfront hgap hname.tidy.opens hname.tidy.ends
  have hident : isIdentifier name.toList = true :=
    isIdentifier_iff.mpr (by rwa [String.ofList_toList])
  simp only [binding, hcut, htrim, hident, if_true, String.ofList_toList]
  cases value rest <;> rfl

end Decode

/-- The texts of the bindings, as the commas in the canonical text cut them apart. -/
def Env.parts : Env → List (List Char)
  | .empty => []
  | .extend rest name value =>
    rest.parts ++ [(if rest.isEmpty then [] else [' ']) ++ bindingText name value]

namespace Decode

open Text

theorem splitTopLevel?_text : (env : Env) → env.WellFormed → env ≠ .empty →
    splitTopLevel? env.text.toList = some env.parts
  | .empty, _, hne => absurd rfl hne
  | .extend .empty name v, h, _ => by
    rw [Env.text_extend_empty,
      splitTopLevel?_of_balanced (tidy_bindingText h.2.1 (v.tidy_text h.2.2)).balanced]
    rfl
  | .extend (.extend rest bound w) name v, h, _ => by
    have hne : Env.extend rest bound w ≠ .empty := nofun
    have ih := splitTopLevel?_text (.extend rest bound w) h.1 hne
    have hlast : Balanced false (' ' :: bindingText name v) :=
      .plain rfl nofun (tidy_bindingText h.2.1 (v.tidy_text h.2.2)).balanced
    have hcomma := splitAtDepth?_append_comma ih (' ' :: bindingText name v)
    rw [show splitAtDepth? 0 _ = _ from splitTopLevel?_of_balanced hlast] at hcomma
    rw [Env.text_extend hne]
    exact hcomma

/-- An environment is read by reading its parts. -/
theorem environment_text {env : Env} (h : env.WellFormed) {text : List Char}
    (htext : trim text = env.text.toList) (value : List Char → Except DecodeError Value) :
    environment value text = env.parts.foldlM (binding value) .empty := by
  by_cases hempty : env = .empty
  · subst hempty
    simp [environment, htext, Env.text, Env.parts]
    rfl
  · have hne := (env.tidy_text h hempty).opens.ne_nil
    simp only [environment, htext, List.isEmpty_eq_false_iff.mpr hne, splitBindings,
      splitTopLevel?_text env h hempty]
    rfl

theorem foldlM_parts_extend {rest : Env} {name : String} (hname : IsIdentifier name) (v : Value)
    (value : List Char → Except DecodeError Value) :
    (Env.extend rest name v).parts.foldlM (binding value) .empty =
      rest.parts.foldlM (binding value) .empty >>= fun env =>
        (value (' ' :: v.text.toList)).map (env.extend name) := by
  have hbinding (env : Env) :
      binding value env ((if rest.isEmpty then [] else [' ']) ++ bindingText name v) =
        (value (' ' :: v.text.toList)).map (env.extend name) := by
    have hfront : (if rest.isEmpty then [] else [' ']).all isBlank = true := by split <;> rfl
    have hgap : [' '].all isBlank = true := rfl
    rw [← binding_append hfront hgap hname]
    simp [bindingText]
  rw [Env.parts, List.foldlM_append]
  simp only [List.foldlM_cons, List.foldlM_nil, hbinding, bind_pure]

mutual

/-- A well-formed value is read from its canonical text if there is room for its closures. -/
theorem valueForm_text : (v : Value) → v.WellFormed → (room : Nat) → (text : List Char) →
    trim text = v.text.toList →
    valueForm (closureIn room) text = within room v.closureDepth v
  | .int n, h, room, text, htext => valueForm_int (htext ▸ Integer.ofText?_write h) _
  | .bool b, _, room, text, htext => valueForm_bool htext _
  | .closure env code, h, 0, text, htext => by
    rw [valueForm_closure htext]
    rfl
  | .closure env code, h, room + 1, text, htext => by
    rw [valueForm_closure htext, closureIn, closureForm_text h.1 h.2,
      environment_text h.1 h.1.trim_text, foldlM_parts env h.1 room, within_map]
    simp [within, Value.closureDepth]

/-- A well-formed environment is read from the parts of its canonical text if there is room. -/
theorem foldlM_parts : (env : Env) → env.WellFormed → (room : Nat) →
    env.parts.foldlM (binding (valueForm (closureIn room))) .empty =
      within room env.closureDepth env
  | .empty, _, room => rfl
  | .extend rest name v, h, room => by
    have htrim : trim (' ' :: v.text.toList) = v.text.toList :=
      (v.tidy_text h.2.2).trim_behind [' '] rfl
    rw [foldlM_parts_extend h.2.1, foldlM_parts rest h.1 room,
      valueForm_text v h.2.2 room _ htrim, within_bind]
    rfl

end

/-! ## Whatever is read is well-formed -/

theorem isOk_bind {α β : Type} {x : Except DecodeError α} {f : α → Except DecodeError β} {b : β}
    (h : x >>= f = .ok b) : ∃ a, x = .ok a ∧ f a = .ok b := by
  cases x with
  | error e => cases h
  | ok a => exact ⟨a, rfl, h⟩

theorem balancedSpan_eq_ok {o c : Char} {text inner rest : List Char}
    (h : balancedSpan o c text = .ok (inner, rest)) : span? o c text = some (inner, rest) := by
  unfold balancedSpan at h
  split at h
  · next hspan =>
    cases h
    exact hspan
  · cases h

section Sound

variable {room : Nat} {value : List Char → Except DecodeError Value}
  (hvalue : ∀ text v, value text = .ok v → v.WellFormed ∧ v.closureDepth ≤ room)
include hvalue

theorem binding_sound {env env' : Env} (henv : env.WellFormed ∧ env.closureDepth ≤ room)
    {text : List Char} (h : binding value env text = .ok env') :
    env'.WellFormed ∧ env'.closureDepth ≤ room := by
  unfold binding at h
  split at h
  · cases h
  · split at h
    · next hname =>
      obtain ⟨v, hv, hextend⟩ := isOk_bind h
      cases hextend
      obtain ⟨hwf, hdepth⟩ := hvalue _ v hv
      exact ⟨⟨henv.1, isIdentifier_iff.mp hname, hwf⟩, Nat.max_le.mpr ⟨henv.2, hdepth⟩⟩
    · cases h

theorem foldlM_binding_sound {parts : List (List Char)} {env env' : Env}
    (henv : env.WellFormed ∧ env.closureDepth ≤ room)
    (h : parts.foldlM (binding value) env = .ok env') :
    env'.WellFormed ∧ env'.closureDepth ≤ room := by
  induction parts generalizing env with
  | nil =>
    cases h
    exact henv
  | cons part parts ih =>
    obtain ⟨next, hnext, hrest⟩ := isOk_bind h
    exact ih (binding_sound hvalue henv hnext) hrest

theorem environment_sound {text : List Char} {env : Env} (h : environment value text = .ok env) :
    env.WellFormed ∧ env.closureDepth ≤ room := by
  have hempty : Env.empty.WellFormed ∧ Env.empty.closureDepth ≤ room := ⟨trivial, Nat.zero_le _⟩
  unfold environment at h
  dsimp only at h
  split at h
  · cases h
    exact hempty
  · obtain ⟨parts, -, hparts⟩ := isOk_bind h
    exact foldlM_binding_sound hvalue hempty hparts

end Sound

/-- Of the text of a closure, nothing but blanks stands outside the two spans. -/
theorem closureForm_eq_ok {captured : List Char → Except DecodeError Env} {text : List Char}
    {v : Value} (h : closureForm captured text = .ok v) :
    ∃ envText rest codeText tail env code, v = .closure env code ∧
      span? '(' ')' (trim text) = some (envText, rest) ∧
      span? '[' ']' (trimStart rest) = some (codeText, tail) ∧ trim tail = [] ∧
      captured envText = .ok env ∧ Code.parse (String.ofList codeText) = .ok code := by
  unfold closureForm at h
  obtain ⟨⟨envText, rest⟩, henvSpan, h⟩ := isOk_bind h
  dsimp only at h
  split at h
  · cases h
  obtain ⟨⟨codeText, tail⟩, hcodeSpan, h⟩ := isOk_bind h
  dsimp only at h
  split at h
  · cases h
  next htail =>
  obtain ⟨env, henv, h⟩ := isOk_bind h
  split at h
  · next code hcode =>
    cases h
    refine ⟨envText, rest, codeText, tail, env, code, rfl, balancedSpan_eq_ok henvSpan,
      balancedSpan_eq_ok hcodeSpan, ?_, henv, hcode⟩
    simpa using htail
  · cases h

theorem valueForm_eq_ok {closure : List Char → Except DecodeError Value} {text : List Char}
    {v : Value} (h : valueForm closure text = .ok v) :
    (∃ n, v = .int n ∧ Integer.ofText? (trim text) = some n) ∨
      (∃ b, v = .bool b ∧ trim text = (Value.bool b).text.toList) ∨
      closure (trim text) = .ok v := by
  unfold valueForm at h
  dsimp only at h
  split at h
  · next htext =>
    cases h
    exact .inr (.inl ⟨true, rfl, htext⟩)
  split at h
  · next htext =>
    cases h
    exact .inr (.inl ⟨false, rfl, htext⟩)
  split at h
  · exact .inr (.inr h)
  split at h
  · next n hn =>
    cases h
    exact .inl ⟨n, rfl, hn⟩
  · cases h

/-- Only well-formed values are ever read, and only to the depth that there is room for. -/
theorem valueForm_sound (room : Nat) (text : List Char) (v : Value)
    (h : valueForm (closureIn room) text = .ok v) : v.WellFormed ∧ v.closureDepth ≤ room := by
  induction room generalizing text v with
  | zero =>
    obtain ⟨n, rfl, hn⟩ | ⟨b, rfl, -⟩ | hclosure := valueForm_eq_ok h
    · exact ⟨Integer.inRange_of_ofText? hn, Nat.le_refl 0⟩
    · exact ⟨trivial, Nat.le_refl 0⟩
    · cases hclosure
  | succ room ih =>
    obtain ⟨n, rfl, hn⟩ | ⟨b, rfl, -⟩ | hclosure := valueForm_eq_ok h
    · exact ⟨Integer.inRange_of_ofText? hn, Nat.zero_le _⟩
    · exact ⟨trivial, Nat.zero_le _⟩
    · obtain ⟨_, _, _, _, env, code, rfl, -, -, -, henv, hcode⟩ := closureForm_eq_ok hclosure
      obtain ⟨hwf, hdepth⟩ := environment_sound ih henv
      exact ⟨⟨hwf, Code.wellFormed_of_parse hcode⟩, Nat.succ_le_succ hdepth⟩

end Decode

/-! ## The round trips -/

open Decode

theorem Value.WellFormed.decode_text {v : Value} (h : v.WellFormed) :
    Value.decode v.text = within maxClosureDepth v.closureDepth v :=
  valueForm_text v h maxClosureDepth _ (v.tidy_text h).trim_eq

theorem Value.wellFormed_of_decode {text : String} {v : Value} (h : Value.decode text = .ok v) :
    v.WellFormed ∧ v.closureDepth ≤ maxClosureDepth :=
  valueForm_sound _ _ v h

theorem Env.WellFormed.decode_text {env : Env} (h : env.WellFormed) :
    Env.decode env.text = within maxClosureDepth env.closureDepth env := by
  rw [Env.decode, environment_text h h.trim_text, foldlM_parts env h]

theorem Env.wellFormed_of_decode {text : String} {env : Env} (h : Env.decode text = .ok env) :
    env.WellFormed ∧ env.closureDepth ≤ maxClosureDepth :=
  environment_sound (valueForm_sound maxClosureDepth) h

/-- A value is read back from its canonical text just if it is well-formed and its closures stand at
most 200 deep; if they stand deeper, that is the error. The same holds of an environment. Whatever
is read from any text is such a value or environment, so that it is read back. -/
theorem decode_text_iff_wellFormed :
    (∀ v : Value,
      (Value.decode v.text = .ok v ↔ v.WellFormed ∧ v.closureDepth ≤ 200) ∧
      (v.WellFormed → 200 < v.closureDepth →
        Value.decode v.text = .error (.nestingTooDeep 200))) ∧
    (∀ env : Env,
      (Env.decode env.text = .ok env ↔ env.WellFormed ∧ env.closureDepth ≤ 200) ∧
      (env.WellFormed → 200 < env.closureDepth →
        Env.decode env.text = .error (.nestingTooDeep 200))) ∧
    (∀ (text : String) (v : Value), Value.decode text = .ok v →
      v.WellFormed ∧ v.closureDepth ≤ 200 ∧ Value.decode v.text = .ok v) ∧
    ∀ (text : String) (env : Env), Env.decode text = .ok env →
      env.WellFormed ∧ env.closureDepth ≤ 200 ∧ Env.decode env.text = .ok env := by
  refine ⟨fun v => ⟨⟨Value.wellFormed_of_decode, ?_⟩, fun h hdepth => ?_⟩,
    fun env => ⟨⟨Env.wellFormed_of_decode, ?_⟩, fun h hdepth => ?_⟩,
    fun text v h => ?_, fun text env h => ?_⟩
  · rintro ⟨h, hdepth⟩
    rw [h.decode_text]
    exact within_of_le hdepth v
  · rw [h.decode_text]
    exact within_of_lt hdepth v
  · rintro ⟨h, hdepth⟩
    rw [h.decode_text]
    exact within_of_le hdepth env
  · rw [h.decode_text]
    exact within_of_lt hdepth env
  · obtain ⟨hwf, hdepth⟩ := Value.wellFormed_of_decode h
    exact ⟨hwf, hdepth, hwf.decode_text.trans (within_of_le hdepth v)⟩
  · obtain ⟨hwf, hdepth⟩ := Env.wellFormed_of_decode h
    exact ⟨hwf, hdepth, hwf.decode_text.trans (within_of_le hdepth env)⟩

end BigStep
