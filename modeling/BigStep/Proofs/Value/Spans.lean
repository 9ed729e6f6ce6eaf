import BigStep.Proofs.Text.Offsets
import BigStep.Proofs.Value.RoundTrip

/-!
# The delimiter that matches

A closure is cut into its environment and its code by counting delimiters, before anything between
them is read. The cut is right for any text and any two characters.

* `Nests o c cs`: as many `o` as `c`, and no front part of the text with more `c` than `o`.
* `Closes o c depth cs`: the same where `depth` delimiters are open before the text.
  `closes_cons_iff`: what one character does to their number.
* `closeOff?_eq_some_iff`: the scanner stops at the `c` behind a text that closes what is open.
* `Spanned o c text inner rest`: `inner` stands between matching delimiters, and `rest` behind them.
* `balancedSpan_finds_match`: the span is found just if there is one, and there is one at most.
-/

namespace BigStep

namespace Text

/-! ## Texts that close what is open -/

/-- The delimiters nest: there are as many of one as of the other, and in no front part of the text
do more of them close than open. -/
structure Nests (o c : Char) (cs : List Char) : Prop where
  count_eq : cs.count o = cs.count c
  count_le : ∀ p, p <+: cs → p.count c ≤ p.count o

instance (o c : Char) (cs : List Char) : Decidable (Nests o c cs) :=
  decidable_of_iff (cs.count o = cs.count c ∧
      ∀ i < cs.length + 1, (cs.take i).count c ≤ (cs.take i).count o) <| by
    constructor
    · rintro ⟨heq, hle⟩
      refine ⟨heq, fun p hp => ?_⟩
      rw [List.prefix_iff_eq_take.mp hp]
      exact hle p.length (Nat.lt_succ_of_le hp.length_le)
    · intro h
      exact ⟨h.count_eq, fun i _ => h.count_le _ (List.take_prefix i cs)⟩

/-- The text closes the `depth` delimiters that are open before it and those that it opens, and
nowhere more. -/
structure Closes (o c : Char) (depth : Nat) (cs : List Char) : Prop where
  count_eq : cs.count o + depth = cs.count c
  count_le : ∀ p, p <+: cs → p.count c ≤ p.count o + depth

theorem closes_zero_iff {o c : Char} {cs : List Char} : Closes o c 0 cs ↔ Nests o c cs :=
  ⟨fun h => ⟨h.count_eq, h.count_le⟩, fun h => ⟨h.count_eq, h.count_le⟩⟩

theorem closes_nil_iff {o c : Char} {depth : Nat} : Closes o c depth [] ↔ depth = 0 := by
  constructor
  · intro h
    simpa using h.count_eq
  · rintro rfl
    exact ⟨rfl, fun p hp => by simp [List.prefix_nil.mp hp]⟩

/-- A character takes the number of open delimiters from `depth` to `depth'`. -/
theorem closes_cons_iff {o c d : Char} {depth depth' : Nat}
    (hd : [d].count o + depth = [d].count c + depth') (cs : List Char) :
    Closes o c depth (d :: cs) ↔ Closes o c depth' cs := by
  have hcount (x : Char) (p : List Char) : (d :: p).count x = [d].count x + p.count x := by
    rw [← List.count_append, List.singleton_append]
  have ho := hcount o cs
  have hc := hcount c cs
  constructor
  · rintro ⟨heq, hle⟩
    refine ⟨by omega, fun p hp => ?_⟩
    have hp' := hle (d :: p) ((List.prefix_cons_inj d).mpr hp)
    have hpo := hcount o p
    have hpc := hcount c p
    omega
  · rintro ⟨heq, hle⟩
    refine ⟨by omega, fun p hp => ?_⟩
    rcases List.prefix_cons_iff.mp hp with rfl | ⟨t, rfl, ht⟩
    · simp
    · have ht' := hle t ht
      have hto := hcount o t
      have htc := hcount c t
      omega

section Delimiters

variable {o c : Char} (hne : o ≠ c)
include hne

theorem closes_opening_iff (depth : Nat) (cs : List Char) :
    Closes o c depth (o :: cs) ↔ Closes o c (depth + 1) cs :=
  closes_cons_iff (by simp [hne]; omega) cs

theorem closes_closing_iff (depth : Nat) (cs : List Char) :
    Closes o c (depth + 1) (c :: cs) ↔ Closes o c depth cs :=
  closes_cons_iff (by simp [hne.symm]; omega) cs

/-- Where none is open, none can be closed. -/
theorem not_closes_closing (cs : List Char) : ¬ Closes o c 0 (c :: cs) := by
  intro h
  have hle := h.count_le [c] (by simp)
  simp [hne.symm] at hle

end Delimiters

theorem closes_cons_of_ne_iff {o c d : Char} (ho : d ≠ o) (hc : d ≠ c) (depth : Nat)
    (cs : List Char) : Closes o c depth (d :: cs) ↔ Closes o c depth cs :=
  closes_cons_iff (by simp [ho, hc]) cs

/-! ## The scanner -/

theorem closes_of_closeOff? {o c : Char} (hne : o ≠ c) {depth : Nat} {cs inner rest : List Char}
    (h : closeOff? o c depth cs = some (inner, rest)) : Closes o c depth inner := by
  fun_induction closeOff? o c depth cs generalizing inner rest with
  | case1 => cases h
  | case2 depth cs ih =>
    obtain ⟨⟨i, r⟩, hir, hparts⟩ := Option.map_eq_some_iff.mp h
    cases hparts
    exact (closes_opening_iff hne depth i).mpr (ih hir)
  | case3 cs =>
    cases h
    exact closes_nil_iff.mpr rfl
  | case4 cs depth _ ih =>
    obtain ⟨⟨i, r⟩, hir, hparts⟩ := Option.map_eq_some_iff.mp h
    cases hparts
    exact (closes_closing_iff hne depth i).mpr (ih hir)
  | case5 depth d cs ho hc ih =>
    obtain ⟨⟨i, r⟩, hir, hparts⟩ := Option.map_eq_some_iff.mp h
    cases hparts
    exact (closes_cons_of_ne_iff ho hc depth i).mpr (ih hir)

theorem closeOff?_of_closes {o c : Char} (hne : o ≠ c) {depth : Nat} {inner : List Char}
    (h : Closes o c depth inner) (rest : List Char) :
    closeOff? o c depth (inner ++ c :: rest) = some (inner, rest) := by
  induction inner generalizing depth with
  | nil =>
    obtain rfl := closes_nil_iff.mp h
    exact closeOff?_closing hne rest
  | cons d inner ih =>
    rw [List.cons_append]
    by_cases ho : d = o
    · subst ho
      rw [closeOff?_opening, ih ((closes_opening_iff hne depth inner).mp h)]
      rfl
    by_cases hc : d = c
    · subst hc
      cases depth with
      | zero => exact absurd h (not_closes_closing hne inner)
      | succ depth =>
        rw [closeOff?_closing_succ hne, ih ((closes_closing_iff hne depth inner).mp h)]
        rfl
    · rw [closeOff?_cons_of_ne ho hc, ih ((closes_cons_of_ne_iff ho hc depth inner).mp h)]
      rfl

/-- The scanner stops at the delimiter behind a text that closes what is open. -/
theorem closeOff?_eq_some_iff {o c : Char} (hne : o ≠ c) {depth : Nat}
    {cs inner rest : List Char} :
    closeOff? o c depth cs = some (inner, rest) ↔
      cs = inner ++ c :: rest ∧ Closes o c depth inner := by
  constructor
  · intro h
    exact ⟨eq_of_closeOff? h, closes_of_closeOff? hne h⟩
  · rintro ⟨rfl, h⟩
    exact closeOff?_of_closes hne h rest

/-- With one character for both delimiters all of them open. -/
theorem closeOff?_self (o : Char) (depth : Nat) (cs : List Char) :
    closeOff? o o depth cs = none := by
  induction cs generalizing depth with
  | nil => cases depth <;> rfl
  | cons d cs ih =>
    by_cases ho : d = o
    · rw [ho, closeOff?_opening, ih]
      rfl
    · rw [closeOff?_cons_of_ne ho ho, ih]
      rfl

/-- The text is `o`, then `inner`, the delimiter that matches, and `rest`. -/
structure Spanned (o c : Char) (text inner rest : List Char) : Prop where
  text_eq : text = o :: inner ++ c :: rest
  nests : Nests o c inner

theorem span?_eq_some_iff {o c : Char} (hne : o ≠ c) {text inner rest : List Char} :
    span? o c text = some (inner, rest) ↔ Spanned o c text inner rest := by
  constructor
  · intro h
    obtain rfl := eq_of_span? h
    refine ⟨rfl, ?_⟩
    rw [List.cons_append, span?, if_pos rfl, closeOff?_eq_some_iff hne] at h
    exact closes_zero_iff.mp h.2
  · rintro ⟨rfl, h⟩
    rw [List.cons_append, span?, if_pos rfl]
    exact closeOff?_of_closes hne (closes_zero_iff.mpr h) rest

theorem span?_self (o : Char) (text : List Char) : span? o o text = none := by
  cases text with
  | nil => rfl
  | cons d cs =>
    rw [span?, closeOff?_self]
    split <;> rfl

theorem Spanned.unique {o c : Char} (hne : o ≠ c) {text inner₁ inner₂ rest₁ rest₂ : List Char}
    (h₁ : Spanned o c text inner₁ rest₁) (h₂ : Spanned o c text inner₂ rest₂) :
    inner₁ = inner₂ ∧ rest₁ = rest₂ := by
  have hspan := ((span?_eq_some_iff hne).mpr h₁).symm.trans ((span?_eq_some_iff hne).mpr h₂)
  exact Prod.mk.inj (Option.some.inj hspan)

end Text

open Text

namespace Decode

theorem toOption_balancedSpan (o c : Char) (text : List Char) :
    (balancedSpan o c text).toOption = span? o c text := by
  unfold balancedSpan
  cases span? o c text <;> rfl

theorem balancedSpan_eq_ok_iff {o c : Char} {text inner rest : List Char} :
    balancedSpan o c text = .ok (inner, rest) ↔ span? o c text = some (inner, rest) :=
  ⟨balancedSpan_eq_ok, fun h => by rw [balancedSpan, h]⟩

theorem balancedSpan_of_none {o c : Char} {text : String} (h : span? o c text.toList = none) :
    balancedSpan o c text.toList = .error (.unbalancedDelimiter text) := by
  rw [balancedSpan, h, String.ofList_toList]

/-- Two different delimiters, of any width. A span is found just if the text starts with it and the
delimiter that matches follows; there is one such span at most, and without one the error quotes
the text. With one character for both there is never a span. A scan by byte offsets never closes
where none is open, cuts only between characters, and finds the same. -/
theorem balancedSpan_finds_match (o c : Char) (text : String) :
    (o ≠ c →
      (∀ inner rest, balancedSpan o c text.toList = .ok (inner, rest) ↔
        Spanned o c text.toList inner rest) ∧
      (∀ inner₁ rest₁ inner₂ rest₂, Spanned o c text.toList inner₁ rest₁ →
        Spanned o c text.toList inner₂ rest₂ → inner₁ = inner₂ ∧ rest₁ = rest₂) ∧
      ((¬ ∃ inner rest, Spanned o c text.toList inner rest) →
        balancedSpan o c text.toList = .error (.unbalancedDelimiter text))) ∧
    (o = c → balancedSpan o c text.toList = .error (.unbalancedDelimiter text)) ∧
    spanByOffset o c text =
      .ok ((balancedSpan o c text.toList).toOption.map fun (inner, rest) =>
        (String.ofList inner, String.ofList rest)) := by
  refine ⟨fun hne => ⟨fun inner rest => ?_, fun _ _ _ _ h₁ h₂ => h₁.unique hne h₂, ?_⟩, ?_, ?_⟩
  · rw [balancedSpan_eq_ok_iff, span?_eq_some_iff hne]
  · intro hnone
    refine balancedSpan_of_none (Option.eq_none_iff_forall_ne_some.mpr ?_)
    rintro ⟨inner, rest⟩ hspan
    exact hnone ⟨inner, rest, (span?_eq_some_iff hne).mp hspan⟩
  · rintro rfl
    exact balancedSpan_of_none (span?_self o _)
  · rw [spanByOffset_eq, toOption_balancedSpan]

/-- The delimiters here have two bytes each, and the text behind them starts with four. -/
theorem balancedSpan_finds_match_wide :
    '«' ≠ '»' ∧
    balancedSpan '«' '»' "«a«β»»😀".toList = .ok ("a«β»".toList, ['😀']) ∧
    spanByOffset '«' '»' "«a«β»»😀" = .ok (some ("a«β»", "😀")) ∧
    balancedSpan '«' '»' "«a«β»".toList = .error (.unbalancedDelimiter "«a«β»") := by
  have hne : '«' ≠ '»' := by decide
  obtain ⟨hspan, -, hoffset⟩ := balancedSpan_finds_match '«' '»' "«a«β»»😀"
  have hok : balancedSpan '«' '»' "«a«β»»😀".toList = .ok ("a«β»".toList, ['😀']) :=
    ((hspan hne).1 _ _).mpr ⟨rfl, by decide⟩
  refine ⟨hne, hok, ?_, ?_⟩
  · rw [hoffset, hok]
    rfl
  · refine ((balancedSpan_finds_match '«' '»' "«a«β»").1 hne).2.2 ?_
    rintro ⟨inner, rest, hspanned⟩
    have hnone : span? '«' '»' "«a«β»".toList = none := by decide
    rw [(span?_eq_some_iff hne).mpr hspanned] at hnone
    cases hnone

end Decode

end BigStep
