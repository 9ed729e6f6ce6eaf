import BigStep.Proofs.Expr.Balance
import BigStep.Proofs.Value.RoundTrip

/-!
# The text format of values and environments

The format as a grammar over characters, where `W` is any number of blanks:

```text
EnvText k      := W | BindingsText k
BindingsText k := BindingText k | BindingsText k ',' BindingText k
BindingText k  := W IDENT W '=' ValueText k
ValueText k    := W BareText k W
BareText k     := true | false | Numeral | ClosureText k
ClosureText k  := '(' EnvText (k + 1) ')' W '[' code ']'        if k < 200
```

The level `k` counts the closures around a text. The readers do not follow this grammar: they find
a matching bracket or the commas by counting, and only then look at what they have cut out.

* `EnvText.balanced`, `BareText.tidy`: the texts of the format are balanced, so the cuts fall where
  the grammar has them.
* `BindingsText.of_padded`, `BindingsText.trimmed`: blanks at the ends of bindings mean nothing.
* `environment_eq_ok_iff`, `closureText_of_closureForm`, `closureForm_of_closureText`,
  `valueForm_eq_ok_iff`: each reader keeps to its part of the grammar if the reader of the parts
  inside does.
* `valueForm_closureIn_eq_ok_iff`: all levels, by induction on the room that is left.
* `decode_eq_ok_iff_format`: the decoders accept just the format, and it is unambiguous.
-/

namespace BigStep

open Text

/-! ## The grammar -/

/-- One decimal digit or more, and the number that they denote. Zeros may lead. -/
def Digits (ds : List Char) (n : Nat) : Prop :=
  ds ≠ [] ∧ ds.all Char.isDigit = true ∧ Nat.ofDigitChars 10 ds 0 = n

/-- Digits with at most one sign in front, and the integer that they denote. -/
inductive Numeral : List Char → Int → Prop
  | unsigned {ds : List Char} {n : Nat} (h : Digits ds n) : Numeral ds n
  | plus {ds : List Char} {n : Nat} (h : Digits ds n) : Numeral ('+' :: ds) n
  | minus {ds : List Char} {n : Nat} (h : Digits ds n) : Numeral ('-' :: ds) (-(n : Int))

mutual

/-- The text denotes the environment inside `k` closures. -/
inductive EnvText : (k : Nat) → List Char → Env → Prop
  | blank {k : Nat} {cs : List Char} (h : cs.all isBlank = true) : EnvText k cs .empty
  | bindings {k : Nat} {cs : List Char} {env : Env} (h : BindingsText k cs env) : EnvText k cs env

/-- The text denotes an environment of at least one binding. Bindings keep their order. -/
inductive BindingsText : (k : Nat) → List Char → Env → Prop
  | single {k : Nat} {cs : List Char} {name : String} {v : Value} (h : BindingText k cs name v) :
      BindingsText k cs (Env.empty.extend name v)
  | comma {k : Nat} {cs ds : List Char} {env : Env} {name : String} {v : Value}
      (h : BindingsText k cs env) (hlast : BindingText k ds name v) :
      BindingsText k (cs ++ ',' :: ds) (env.extend name v)

/-- The text binds the value to the name. -/
inductive BindingText : (k : Nat) → List Char → String → Value → Prop
  | equal {k : Nat} {before cs : List Char} {name : String} {v : Value}
      (hbefore : Padded name.toList before) (hname : IsIdentifier name) (hv : ValueText k cs v) :
      BindingText k (before ++ '=' :: cs) name v

/-- The text denotes the value. -/
inductive ValueText : (k : Nat) → List Char → Value → Prop
  | padded {k : Nat} {core cs : List Char} {v : Value} (hcs : Padded core cs)
      (h : BareText k core v) : ValueText k cs v

/-- The text denotes the value, without blanks around it. -/
inductive BareText : (k : Nat) → List Char → Value → Prop
  | true {k : Nat} : BareText k "true".toList (.bool true)
  | false {k : Nat} : BareText k "false".toList (.bool false)
  | numeral {k : Nat} {cs : List Char} {n : Int} (h : Numeral cs n) (hn : Integer.InRange n) :
      BareText k cs (.int n)
  | closure {k : Nat} {cs : List Char} {v : Value} (h : ClosureText k cs v) : BareText k cs v

/-- The text denotes the closure. Closures stand at most 200 deep. -/
inductive ClosureText : (k : Nat) → List Char → Value → Prop
  | spans {k : Nat} {es gap form : List Char} {env : Env} {code : Code} (hk : k < 200)
      (henv : EnvText (k + 1) es env) (hgap : gap.all isBlank = true)
      (hcode : Code.parse (String.ofList form) = .ok code) :
      ClosureText k ('(' :: es ++ ')' :: (gap ++ ('[' :: form ++ [']']))) (.closure env code)

end

/-! ## Numerals -/

theorem signed?_eq_some_iff {cs : List Char} {n : Int} :
    Decimal.signed? cs = some n ↔ Numeral cs n := by
  constructor
  · intro h
    unfold Decimal.signed? at h
    split at h
    · next ds =>
      cases hm : Decimal.digits? ds with
      | none => simp [hm] at h
      | some m =>
        obtain rfl : -(m : Int) = n := by simpa [hm] using h
        exact .minus (Decimal.digits?_eq_some_iff.mp hm)
    · obtain ⟨m, hm, rfl⟩ := Option.map_eq_some_iff.mp h
      exact .plus (Decimal.digits?_eq_some_iff.mp hm)
    · obtain ⟨m, hm, rfl⟩ := Option.map_eq_some_iff.mp h
      exact .unsigned (Decimal.digits?_eq_some_iff.mp hm)
  · intro h
    cases h with
    | unsigned h =>
      rw [Decimal.signed?_of_isDigit h.2.1, Decimal.digits?_eq_some_iff.mpr h]
      rfl
    | plus h | minus h =>
      rw [Decimal.signed?, Decimal.digits?_eq_some_iff.mpr h]
      rfl

theorem ofText?_eq_some_iff_numeral {cs : List Char} {n : Int} :
    Integer.ofText? cs = some n ↔ Numeral cs n ∧ Integer.InRange n := by
  rw [Integer.ofText?, Option.bind_eq_some_iff]
  constructor
  · rintro ⟨m, hm, hc⟩
    obtain ⟨hr, rfl⟩ := Integer.checked_eq_some_iff.mp hc
    exact ⟨signed?_eq_some_iff.mp hm, hr⟩
  · rintro ⟨hm, hr⟩
    exact ⟨n, signed?_eq_some_iff.mpr hm, Integer.checked_eq_some_iff.mpr ⟨hr, rfl⟩⟩

theorem Digits.all_isInk {ds : List Char} {n : Nat} (h : Digits ds n) : ds.all isInk = true :=
  List.all_eq_true.mpr fun c hc =>
    isInk_of_isAlphanum (isAlphanum_of_isDigit (List.all_eq_true.mp h.2.1 c hc))

theorem Numeral.tidy {cs : List Char} {n : Int} (h : Numeral cs n) : Tidy false cs := by
  cases h with
  | unsigned h => exact tidy_of_all h.1 h.all_isInk
  | plus h => exact tidy_of_all (List.cons_ne_nil _ _) h.all_isInk
  | minus h => exact tidy_of_all (List.cons_ne_nil _ _) h.all_isInk

/-! ## Texts of the format are balanced -/

theorem balanced_of_parse {form : List Char} {code : Code}
    (h : Code.parse (String.ofList form) = .ok code) : Balanced false form := by
  simpa using Code.balanced_of_parse h

mutual

theorem EnvText.balanced {k : Nat} {cs : List Char} {env : Env} :
    EnvText k cs env → Balanced true cs
  | .blank h => .of_isBlank h
  | .bindings h => h.balanced

theorem BindingsText.balanced {k : Nat} {cs : List Char} {env : Env} :
    BindingsText k cs env → Balanced true cs
  | .single h => h.balanced.commas
  | .comma h hlast => h.balanced.append (.plain rfl (fun _ => rfl) hlast.balanced.commas)

theorem BindingText.balanced {k : Nat} {cs : List Char} {name : String} {v : Value} :
    BindingText k cs name v → Balanced false cs
  | .equal hbefore hname hv =>
    (hbefore.balanced hname.tidy.balanced).append (.plain rfl nofun hv.balanced)

theorem ValueText.balanced {k : Nat} {cs : List Char} {v : Value} :
    ValueText k cs v → Balanced false cs
  | .padded hcs h => hcs.balanced h.tidy.balanced

theorem BareText.tidy {k : Nat} {cs : List Char} {v : Value} : BareText k cs v → Tidy false cs
  | .true => tidy_of_all (by decide) (by decide)
  | .false => tidy_of_all (by decide) (by decide)
  | .numeral h _ => h.tidy
  | .closure h => h.tidy

theorem ClosureText.tidy {k : Nat} {cs : List Char} {v : Value} :
    ClosureText k cs v → Tidy false cs
  | .spans _ henv hgap hcode => by
    have hcodeText : Tidy false ('[' :: _ ++ [']']) :=
      .enclose (.inr ⟨rfl, rfl⟩) (balanced_of_parse hcode)
    have henvText : Tidy false ('(' :: _ ++ [')']) := .enclose (.inl ⟨rfl, rfl⟩) henv.balanced
    simpa using henvText.join (.of_isBlank hgap) hcodeText

end

/-! ## Blanks at the ends -/

theorem ValueText.of_padded {k : Nat} {cs ds : List Char} {v : Value} (h : ValueText k cs v)
    (hds : Padded cs ds) : ValueText k ds v := by
  obtain ⟨hcs, hcore⟩ := h
  exact .padded (hcs.trans hds) hcore

theorem ValueText.exists_ends {k : Nat} {cs : List Char} {v : Value} (h : ValueText k cs v) :
    ∃ core back, cs = core ++ back ∧ back.all isBlank = true ∧ Ends core ∧
      ValueText k core v := by
  obtain ⟨⟨front, back, hfront, hback, rfl⟩, hcore⟩ := h
  refine ⟨front ++ _, back, by simp, hback, hcore.tidy.ends.append front, ?_⟩
  exact .padded (padded_behind hfront _) hcore

namespace BindingText

variable {k : Nat} {cs : List Char} {name : String} {v : Value}

theorem behind (h : BindingText k cs name v) {front : List Char}
    (hfront : front.all isBlank = true) : BindingText k (front ++ cs) name v := by
  obtain ⟨hbefore, hname, hv⟩ := h
  rw [← List.append_assoc]
  exact .equal (hbefore.trans (padded_behind hfront _)) hname hv

theorem before (h : BindingText k cs name v) {back : List Char}
    (hback : back.all isBlank = true) : BindingText k (cs ++ back) name v := by
  obtain ⟨hbefore, hname, hv⟩ := h
  rw [List.append_assoc, List.cons_append]
  exact .equal hbefore hname (hv.of_padded (padded_before hback _))

theorem exists_opens (h : BindingText k cs name v) :
    ∃ front core, cs = front ++ core ∧ front.all isBlank = true ∧
      core.head?.any Char.isAlpha = true ∧ BindingText k core name v := by
  cases h with
  | @equal _ _ rest _ _ hbefore hname hv =>
    obtain ⟨front, back, hfront, hback, rfl⟩ := hbefore
    refine ⟨front, name.toList ++ back ++ '=' :: rest, by simp, hfront, ?_, ?_⟩
    · obtain ⟨c, letters, hc, halpha, -⟩ := hname.exists_cons
      simpa [hc] using halpha
    · exact .equal (padded_before hback _) hname hv

theorem exists_ends (h : BindingText k cs name v) :
    ∃ core back, cs = core ++ back ∧ back.all isBlank = true ∧ Ends core ∧
      BindingText k core name v := by
  obtain ⟨hbefore, hname, hv⟩ := h
  obtain ⟨core, back, rfl, hback, hends, hcore⟩ := hv.exists_ends
  refine ⟨_ ++ '=' :: core, back, by simp, hback, ?_, .equal hbefore hname hcore⟩
  exact (hends.append ['=']).append _

end BindingText

namespace BindingsText

theorem behind {front : List Char} (hfront : front.all isBlank = true) {k : Nat}
    {cs : List Char} {env : Env} : BindingsText k cs env → BindingsText k (front ++ cs) env
  | .single h => .single (h.behind hfront)
  | .comma h hlast => by
    rw [← List.append_assoc]
    exact .comma (h.behind hfront) hlast

theorem before {back : List Char} (hback : back.all isBlank = true) {k : Nat} {cs : List Char}
    {env : Env} : BindingsText k cs env → BindingsText k (cs ++ back) env
  | .single h => .single (h.before hback)
  | .comma h hlast => by
    rw [List.append_assoc, List.cons_append]
    exact .comma h (hlast.before hback)

/-- Blanks may be added at both ends of bindings. -/
theorem of_padded {k : Nat} {cs ds : List Char} {env : Env} (h : BindingsText k cs env)
    (hds : Padded cs ds) : BindingsText k ds env := by
  obtain ⟨front, back, hfront, hback, rfl⟩ := hds
  exact (h.before hback).behind hfront

/-- The first of the bindings starts with a letter, after blanks that may be left out. -/
theorem exists_opens {k : Nat} {cs : List Char} {env : Env} : BindingsText k cs env →
    ∃ front core, cs = front ++ core ∧ front.all isBlank = true ∧
      core.head?.any Char.isAlpha = true ∧ BindingsText k core env
  | .single h => by
    obtain ⟨front, core, rfl, hfront, hopens, hcore⟩ := h.exists_opens
    exact ⟨front, core, rfl, hfront, hopens, .single hcore⟩
  | .comma h hlast => by
    obtain ⟨front, core, rfl, hfront, hopens, hcore⟩ := h.exists_opens
    refine ⟨front, core ++ ',' :: _, by simp, hfront, ?_, .comma hcore hlast⟩
    cases core with
    | nil => cases hopens
    | cons c core => exact hopens

theorem exists_ends {k : Nat} {cs : List Char} {env : Env} : BindingsText k cs env →
    ∃ core back, cs = core ++ back ∧ back.all isBlank = true ∧ Ends core ∧
      BindingsText k core env
  | .single h => by
    obtain ⟨core, back, rfl, hback, hends, hcore⟩ := h.exists_ends
    exact ⟨core, back, rfl, hback, hends, .single hcore⟩
  | .comma h hlast => by
    obtain ⟨core, back, rfl, hback, hends, hcore⟩ := hlast.exists_ends
    exact ⟨_ ++ ',' :: core, back, by simp, hback, (hends.append [',']).append _, .comma h hcore⟩

/-- Blanks at both ends of bindings may be left out. -/
theorem trimmed {k : Nat} {cs : List Char} {env : Env} (h : BindingsText k cs env) :
    trim cs ≠ [] ∧ BindingsText k (trim cs) env := by
  obtain ⟨front, core, rfl, hfront, hopens, hcore⟩ := h.exists_opens
  obtain ⟨core, back, rfl, hback, hends, hcore⟩ := hcore.exists_ends
  -- the letter is still there, as what ends with no blank is not empty
  have hopens' : Opens core := by
    cases core with
    | nil => cases hends
    | cons c core => exact opens_cons (isBlank_of_isAlphanum (isAlphanum_of_isAlpha hopens)) core
  rw [trim_append hfront hback hopens' hends]
  exact ⟨hopens'.ne_nil, hcore⟩

end BindingsText

/-! ## The readers -/

namespace Decode

theorem splitBindings_eq_ok_iff {cs : List Char} {parts : List (List Char)} :
    splitBindings cs = .ok parts ↔ splitTopLevel? cs = some parts := by
  unfold splitBindings
  cases splitTopLevel? cs <;> simp

section Environment

variable {k : Nat} {value : List Char → Except DecodeError Value}
  (hvalue : ∀ cs v, value cs = .ok v ↔ ValueText k cs v)
include hvalue

theorem binding_of_bindingText {cs : List Char} {name : String} {v : Value}
    (h : BindingText k cs name v) (env : Env) :
    binding value env cs = .ok (env.extend name v) := by
  obtain ⟨⟨front, gap, hfront, hgap, rfl⟩, hname, hv⟩ := h
  rw [List.append_assoc, List.append_assoc, binding_append hfront hgap hname,
    (hvalue _ v).mpr hv]
  rfl

theorem bindingText_of_binding {env env' : Env} {cs : List Char}
    (h : binding value env cs = .ok env') :
    ∃ name v, BindingText k cs name v ∧ env' = env.extend name v := by
  unfold binding at h
  split at h
  · cases h
  next before rest hcut =>
  split at h
  · next hident =>
    obtain ⟨v, hv, hextend⟩ := isOk_bind h
    cases hextend
    have hbefore : Padded (String.ofList (trim before)).toList before := by
      rw [String.toList_ofList]
      exact padded_trim before
    refine ⟨_, v, ?_, rfl⟩
    rw [eq_of_cut? hcut]
    exact .equal hbefore (isIdentifier_iff.mp hident) ((hvalue rest v).mp hv)
  · cases h

/-- Bindings are cut apart at the commas between them, and each is read. -/
theorem foldlM_of_bindingsText {cs : List Char} {env : Env} : BindingsText k cs env →
    ∃ parts, splitTopLevel? cs = some parts ∧ parts.foldlM (binding value) .empty = .ok env
  | .single h => by
    refine ⟨[cs], splitTopLevel?_of_balanced h.balanced, ?_⟩
    rw [List.foldlM_cons, binding_of_bindingText hvalue h]
    rfl
  | @BindingsText.comma _ _ ds env _ _ h hlast => by
    obtain ⟨parts, hsplit, hparts⟩ := foldlM_of_bindingsText h
    have hcomma := splitAtDepth?_append_comma hsplit ds
    have hds : splitAtDepth? 0 ds = some [ds] := splitTopLevel?_of_balanced hlast.balanced
    rw [hds] at hcomma
    refine ⟨parts ++ [ds], hcomma, ?_⟩
    rw [List.foldlM_append, hparts]
    show [ds].foldlM (binding value) env = _
    rw [List.foldlM_cons, binding_of_bindingText hvalue hlast]
    rfl

/-- Parts that are read one after the other are bindings with commas between them. -/
theorem bindingsText_of_foldlM {parts : List (List Char)} {cs : List Char} {env env' : Env}
    (h : BindingsText k cs env) (hparts : parts.foldlM (binding value) env = .ok env') :
    BindingsText k (cs ++ parts.flatMap (',' :: ·)) env' := by
  induction parts generalizing cs env with
  | nil =>
    cases hparts
    simpa using h
  | cons part parts ih =>
    obtain ⟨next, hnext, hrest⟩ := isOk_bind hparts
    obtain ⟨name, v, hlast, rfl⟩ := bindingText_of_binding hvalue hnext
    simpa using ih (h.comma hlast) hrest

theorem environment_eq_ok_iff (cs : List Char) (env : Env) :
    environment value cs = .ok env ↔ EnvText k cs env := by
  unfold environment
  dsimp only
  by_cases hempty : trim cs = []
  · rw [hempty]
    have hblank := trim_eq_nil_iff.mp hempty
    constructor
    · rintro ⟨⟩
      exact .blank hblank
    · intro h
      cases h with
      | blank => rfl
      | bindings h => exact absurd hempty h.trimmed.1
  · rw [if_neg (by simpa using hempty)]
    constructor
    · intro h
      obtain ⟨parts, hsplit, hparts⟩ := isOk_bind h
      rw [splitBindings_eq_ok_iff] at hsplit
      obtain ⟨part, parts, rfl⟩ := List.exists_cons_of_ne_nil (splitAtDepth?_ne_nil hsplit)
      obtain ⟨first, hfirst, hrest⟩ := isOk_bind hparts
      obtain ⟨name, v, hbinding, rfl⟩ := bindingText_of_binding hvalue hfirst
      -- the scanner may have cut anywhere: the parts make up the text in any case
      have hcore := bindingsText_of_foldlM hvalue (.single hbinding) hrest
      rw [← eq_of_splitAtDepth? hsplit] at hcore
      exact .bindings (hcore.of_padded (padded_trim cs))
    · intro h
      cases h with
      | blank hblank => exact absurd (trim_eq_nil_iff.mpr hblank) hempty
      | bindings h =>
        obtain ⟨parts, hsplit, hparts⟩ := foldlM_of_bindingsText hvalue h.trimmed.2
        rw [splitBindings_eq_ok_iff.mpr hsplit]
        exact hparts

end Environment

section Closure

variable {k : Nat} {captured : List Char → Except DecodeError Env}
  (hcaptured : ∀ cs env, captured cs = .ok env ↔ EnvText (k + 1) cs env)
include hcaptured

theorem closureForm_of_closureText {core cs : List Char} {v : Value} (hcs : Padded core cs)
    (h : ClosureText k core v) : closureForm captured cs = .ok v := by
  have htrim := hcs.trim_eq h.tidy.opens h.tidy.ends
  cases h with
  | @spans _ es gap form env code _ henv hgap hcode =>
    have henvSpan : span? '(' ')' (trim cs) = some (es, gap ++ ('[' :: form ++ [']'])) := by
      rw [htrim]
      exact span?_enclose (.inl ⟨rfl, rfl⟩) henv.balanced _
    have hcodeSpan : span? '[' ']' (trimStart (gap ++ ('[' :: form ++ [']']))) =
        some (form, []) := by
      have hform := balanced_of_parse hcode
      have hcodeText : Tidy false ('[' :: form ++ [']']) := .enclose (.inr ⟨rfl, rfl⟩) hform
      rw [trimStart_append hgap hcodeText.opens]
      exact span?_enclose (.inr ⟨rfl, rfl⟩) hform []
    rw [closureForm_of_spans henvSpan hcodeSpan captured hcode, (hcaptured es env).mpr henv]
    rfl

theorem closureText_of_closureForm (hk : k < 200) {cs : List Char} {v : Value}
    (h : closureForm captured cs = .ok v) : ∃ core, Padded core cs ∧ ClosureText k core v := by
  obtain ⟨es, rest, form, tail, env, code, rfl, henvSpan, hcodeSpan, htail, henv, hcode⟩ :=
    closureForm_eq_ok h
  have hrest : rest = rest.takeWhile isBlank ++ ('[' :: form ++ ']' :: tail) := by
    rw [← eq_of_span? hcodeSpan]
    exact (takeWhile_append_trimStart rest).symm
  have htrim : trim cs =
      '(' :: es ++ ')' :: (rest.takeWhile isBlank ++ ('[' :: form ++ [']'])) ++ tail := by
    rw [eq_of_span? henvSpan]
    simpa using hrest
  have hpadded := (padded_before (trim_eq_nil_iff.mp htail) _).trans (htrim ▸ padded_trim cs)
  have hgap : (rest.takeWhile isBlank).all isBlank = true := List.all_takeWhile
  exact ⟨_, hpadded, .spans hk ((hcaptured es env).mp henv) hgap hcode⟩

end Closure

theorem valueForm_eq_ok_iff {k : Nat} {closure : List Char → Except DecodeError Value}
    (hclosure : ∀ cs v, closure cs = .ok v ↔ ∃ core, Padded core cs ∧ ClosureText k core v)
    (cs : List Char) (v : Value) : valueForm closure cs = .ok v ↔ ValueText k cs v := by
  constructor
  · intro h
    have hpadded := padded_trim cs
    obtain ⟨n, rfl, hn⟩ | ⟨b, rfl, hb⟩ | h := valueForm_eq_ok h
    · obtain ⟨hnumeral, hrange⟩ := ofText?_eq_some_iff_numeral.mp hn
      exact .padded hpadded (.numeral hnumeral hrange)
    · rw [hb] at hpadded
      cases b with
      | true => exact .padded hpadded .true
      | false => exact .padded hpadded .false
    · obtain ⟨core, hcore, hclosureText⟩ := (hclosure _ v).mp h
      exact .padded (hcore.trans hpadded) (.closure hclosureText)
  · rintro ⟨hcs, h⟩
    have htrim := hcs.trim_eq h.tidy.opens h.tidy.ends
    cases h with
    | true | false => exact valueForm_bool htrim closure
    | numeral h hn =>
      exact valueForm_int (htrim ▸ ofText?_eq_some_iff_numeral.mpr ⟨h, hn⟩) closure
    | closure h =>
      have hread := (hclosure _ v).mpr ⟨_, .refl _, h⟩
      cases h
      simpa [valueForm, htrim] using hread

/-- The readers with the room that is left at a level keep to the grammar of that level. -/
theorem valueForm_closureIn_eq_ok_iff (k : Nat) :
    ∀ cs v, valueForm (closureIn (200 - k)) cs = .ok v ↔ ValueText k cs v := by
  -- the level rises as the room falls: what a closure captures is read with one room less
  generalize hroom : 200 - k = room
  induction room generalizing k with
  | zero =>
    refine valueForm_eq_ok_iff fun cs v => ⟨nofun, ?_⟩
    rintro ⟨core, -, ⟨hk, -, -, -⟩⟩
    omega
  | succ room ih =>
    have hcaptured := environment_eq_ok_iff (ih (k + 1) (by omega))
    exact valueForm_eq_ok_iff fun cs v => ⟨closureText_of_closureForm hcaptured (by omega),
      fun ⟨_, hcs, h⟩ => closureForm_of_closureText hcaptured hcs h⟩

theorem environment_closureIn_eq_ok_iff (k : Nat) :
    ∀ cs env, environment (valueForm (closureIn (200 - k))) cs = .ok env ↔ EnvText k cs env :=
  environment_eq_ok_iff (valueForm_closureIn_eq_ok_iff k)

end Decode

/-! ## The format is unambiguous -/

open Decode

theorem EnvText.unique {k : Nat} {cs : List Char} {env₁ env₂ : Env} (h₁ : EnvText k cs env₁)
    (h₂ : EnvText k cs env₂) : env₁ = env₂ := by
  have hread₁ := (environment_closureIn_eq_ok_iff k cs env₁).mpr h₁
  have hread₂ := (environment_closureIn_eq_ok_iff k cs env₂).mpr h₂
  exact Except.ok.inj (hread₁.symm.trans hread₂)

theorem ValueText.unique {k : Nat} {cs : List Char} {v₁ v₂ : Value} (h₁ : ValueText k cs v₁)
    (h₂ : ValueText k cs v₂) : v₁ = v₂ := by
  have hread₁ := (valueForm_closureIn_eq_ok_iff k cs v₁).mpr h₁
  have hread₂ := (valueForm_closureIn_eq_ok_iff k cs v₂).mpr h₂
  exact Except.ok.inj (hread₁.symm.trans hread₂)

theorem BindingsText.mem_equal {k : Nat} {cs : List Char} {env : Env} :
    BindingsText k cs env → '=' ∈ cs
  | .single (.equal _ _ _) => by simp
  | .comma h _ => List.mem_append_left _ h.mem_equal

theorem Numeral.not_mem_equal {cs : List Char} {n : Int} (h : Numeral cs n) : '=' ∉ cs := by
  have hdigits {ds : List Char} {m : Nat} (hds : Digits ds m) : '=' ∉ ds := fun hmem =>
    absurd (List.all_eq_true.mp hds.2.1 _ hmem) (by decide)
  cases h with
  | unsigned hds => exact hdigits hds
  | plus hds => simpa using hdigits hds
  | minus hds => simpa using hdigits hds

theorem ClosureText.head? {k : Nat} {cs : List Char} {v : Value} (h : ClosureText k cs v) :
    cs.head? = some '(' := by
  cases h
  rfl

/-- No text denotes both an environment and a value. -/
theorem EnvText.not_valueText {k : Nat} {cs : List Char} {env : Env} (h : EnvText k cs env)
    (v : Value) : ¬ ValueText k cs v := by
  rintro ⟨hcs, hbare⟩
  have htrim := hcs.trim_eq hbare.tidy.opens hbare.tidy.ends
  cases h with
  | blank hblank =>
    rw [trim_eq_nil_iff.mpr hblank] at htrim
    exact hbare.tidy.opens.ne_nil htrim.symm
  | bindings h =>
    have hbindings := h.trimmed.2
    rw [htrim] at hbindings
    have hequal := hbindings.mem_equal
    cases hbare with
    | true | false => revert hequal; decide
    | numeral hn _ => exact hn.not_mem_equal hequal
    | closure hclosure =>
      obtain ⟨front, core, rfl, hfront, hopens, -⟩ := hbindings.exists_opens
      have hhead := hclosure.head?
      cases front with
      | nil =>
        rw [List.nil_append] at hhead
        rw [hhead] at hopens
        exact absurd hopens (by decide)
      | cons c front =>
        cases hhead
        exact absurd hfront (by simp [isBlank])

/-- The decoders read an environment, or a value, from a text just if the text denotes it in the
format. No text denotes two of them. -/
theorem decode_eq_ok_iff_format :
    (∀ (text : String) (env : Env), Env.decode text = .ok env ↔ EnvText 0 text.toList env) ∧
    (∀ (text : String) (v : Value), Value.decode text = .ok v ↔ ValueText 0 text.toList v) ∧
    ∀ (k : Nat) (cs : List Char),
      (∀ env₁ env₂, EnvText k cs env₁ → EnvText k cs env₂ → env₁ = env₂) ∧
      (∀ v₁ v₂, ValueText k cs v₁ → ValueText k cs v₂ → v₁ = v₂) ∧
      ∀ env v, EnvText k cs env → ¬ ValueText k cs v :=
  ⟨fun text => environment_closureIn_eq_ok_iff 0 text.toList,
    fun text => valueForm_closureIn_eq_ok_iff 0 text.toList,
    fun _ _ => ⟨fun _ _ h₁ h₂ => h₁.unique h₂, fun _ _ h₁ h₂ => h₁.unique h₂,
      fun _ v h => h.not_valueText v⟩⟩

/-- The text of an environment, with blanks of several kinds. -/
def spacedText : String := " b=false ,\u3000f = (x=+007)\t[fun y->(x)]\n"

/-- The environment that `spacedText` denotes. -/
def spacedEnv : Env :=
  (Env.empty.extend "b" (.bool false)).extend "f"
    (.closure (Env.empty.extend "x" (.int 7)) ⟨none, "y", .var "x"⟩)

/-- Blanks may stand around the parts, and a number may have a sign and leading zeros. -/
theorem decode_eq_ok_iff_format_spaced :
    Env.decode spacedText = .ok spacedEnv ∧ EnvText 0 spacedText.toList spacedEnv := by
  have hdecode : Env.decode spacedText = .ok spacedEnv := eq_ok_of_toOption (by decide +kernel)
  exact ⟨hdecode, (decode_eq_ok_iff_format.1 _ _).mp hdecode⟩

end BigStep
