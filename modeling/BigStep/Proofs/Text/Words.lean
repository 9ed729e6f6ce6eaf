import BigStep.Proofs.Text.Delimited

/-!
# The last word of a line

A line is put together from words with spaces between them. A word may hold spaces of its own, but
only inside brackets, so the brackets tell from the right where the last word begins.

* `net cs`: the opening brackets of a text less the closing ones.
* `Balanced.net_suffix_nonpos`: from any place of balanced text on, no bracket is left open.
* `Word cs`: the brackets match in number, and wherever there is a space some bracket is open.
* `Word.cancel`: texts with a word at the end are equal only if both parts are.
* `cut_cancel`: the same from the left, at the first of a character.
-/

namespace BigStep.Text

/-! ## Counting brackets -/

/-- What a character adds to the number of open brackets. -/
def bracket (c : Char) : Int := if isOpening c then 1 else if isClosing c then -1 else 0

/-- The number of opening brackets less that of closing ones. -/
def net : List Char → Int
  | [] => 0
  | c :: cs => bracket c + net cs

@[simp] theorem net_append (cs ds : List Char) : net (cs ++ ds) = net cs + net ds := by
  induction cs with
  | nil => simp [net]
  | cons c cs ih => rw [List.cons_append, net, net, ih, Int.add_assoc]

theorem bracket_of_isPlain {c : Char} (h : isPlain c = true) : bracket c = 0 := by
  simp only [isPlain, Bool.and_eq_true, Bool.not_eq_true'] at h
  simp [bracket, h.1.1, h.1.2]

theorem IsPair.bracket_opening {o c : Char} (h : IsPair o c) : bracket o = 1 := by
  rcases h with ⟨rfl, -⟩ | ⟨rfl, -⟩ <;> rfl

theorem IsPair.bracket_closing {o c : Char} (h : IsPair o c) : bracket c = -1 := by
  rcases h with ⟨-, rfl⟩ | ⟨-, rfl⟩ <;> rfl

theorem Balanced.net_eq_zero {commas : Bool} {cs : List Char} (h : Balanced commas cs) :
    net cs = 0 := by
  induction h with
  | nil => rfl
  | plain hc _ _ ih => rw [net, bracket_of_isPlain hc, ih, Int.add_zero]
  | group hp _ _ ihinner ih =>
    rw [net_append, net, net, hp.bracket_opening, hp.bracket_closing, ihinner, ih]
    rfl

theorem suffix_append_cases {r cs ds : List Char} (h : r <:+ cs ++ ds) :
    r <:+ ds ∨ ∃ t, t <:+ cs ∧ r = t ++ ds := by
  rcases List.suffix_or_suffix_of_suffix h (List.suffix_append cs ds) with hr | ⟨t, rfl⟩
  · exact .inl hr
  · exact .inr ⟨t, List.suffix_append_self_iff.mp h, rfl⟩

/-- A bracket that opens in some end of balanced text is closed in it too. -/
theorem Balanced.net_suffix_nonpos {commas : Bool} {cs r : List Char} (h : Balanced commas cs)
    (hr : r <:+ cs) : net r ≤ 0 := by
  induction h generalizing r with
  | nil => simp [List.suffix_nil.mp hr, net]
  | plain hc hcomma h ih =>
    rcases List.suffix_cons_iff.mp hr with rfl | hr
    · exact Int.le_of_eq (Balanced.plain hc hcomma h).net_eq_zero
    · exact ih hr
  | group hp hinner h ihinner ih =>
    rcases List.suffix_cons_iff.mp hr with rfl | hr
    · exact Int.le_of_eq (Balanced.group hp hinner h).net_eq_zero
    rcases suffix_append_cases hr with hr | ⟨t, ht, rfl⟩
    · rcases List.suffix_cons_iff.mp hr with rfl | hr
      · rw [net, hp.bracket_closing, h.net_eq_zero]
        decide
      · exact ih hr
    · have hle := ihinner ht
      rw [net_append, net, hp.bracket_closing, h.net_eq_zero]
      omega

/-! ## Words -/

/-- As many brackets close as open, and behind every space some close that opened before it. -/
structure Word (cs : List Char) : Prop where
  net_eq_zero : net cs = 0
  net_ne_zero : ∀ r, ' ' :: r <:+ cs → net r ≠ 0

theorem not_mem_of_isInk {cs : List Char} (h : cs.all isInk = true) {c : Char}
    (hc : isInk c = false) : c ∉ cs := by
  intro hmem
  rw [List.all_eq_true.mp h c hmem] at hc
  cases hc

namespace Word

theorem of_all {cs : List Char} (h : cs.all isInk = true) : Word cs := by
  have hbalanced : Balanced false cs := .of_isInk h
  refine ⟨hbalanced.net_eq_zero, fun r hr => ?_⟩
  exact absurd (hr.subset List.mem_cons_self) (not_mem_of_isInk h rfl)

/-- Balanced text in brackets is a word, whatever it is. -/
theorem enclose {commas : Bool} {o c : Char} {cs : List Char} (hp : IsPair o c)
    (h : Balanced commas cs) : Word (o :: cs ++ [c]) := by
  have hbalanced : Balanced false (o :: cs ++ [c]) := h.enclose hp
  refine ⟨hbalanced.net_eq_zero, fun r hr => ?_⟩
  have hspace : ' ' ≠ o ∧ ' ' ≠ c := hp.ne_of_isPlain rfl
  rcases List.suffix_cons_iff.mp hr with heq | hr
  · exact absurd (List.cons.inj heq).1 hspace.1
  rcases suffix_append_cases hr with hr | ⟨t, ht, heq⟩
  · exact absurd (List.mem_singleton.mp (hr.subset List.mem_cons_self)) hspace.2
  -- The space stands inside, so the closing bracket behind it is one that has no partner there.
  cases t with
  | nil => exact absurd (List.cons.inj heq).1 hspace.2
  | cons d t =>
    rw [List.cons_append] at heq
    obtain ⟨rfl, rfl⟩ := List.cons.inj heq
    have hle := h.net_suffix_nonpos ((List.suffix_cons _ t).trans ht)
    rw [net_append, net, net, hp.bracket_closing]
    omega

theorem append {cs ds : List Char} (h : Word cs) (hd : Word ds) : Word (cs ++ ds) := by
  refine ⟨by rw [net_append, h.net_eq_zero, hd.net_eq_zero, Int.add_zero], fun r hr => ?_⟩
  rcases suffix_append_cases hr with hr | ⟨t, ht, heq⟩
  · exact hd.net_ne_zero r hr
  cases t with
  | nil => exact hd.net_ne_zero r ⟨[], heq⟩
  | cons d t =>
    rw [List.cons_append] at heq
    obtain ⟨rfl, rfl⟩ := List.cons.inj heq
    rw [net_append, hd.net_eq_zero, Int.add_zero]
    exact h.net_ne_zero t ht

/-- No word ends in a space and another word. -/
theorem not_suffix {w v : List Char} (hw : Word w) (hv : Word v) : ¬ ' ' :: v <:+ w :=
  fun h => hw.net_ne_zero v h hv.net_eq_zero

/-- The last word of a text, and what stands before it, are determined. -/
theorem cancel {a b w v : List Char} (hw : Word w) (hv : Word v)
    (h : a ++ ' ' :: w = b ++ ' ' :: v) : a = b ∧ w = v := by
  have hsuffix : ' ' :: w <:+ ' ' :: v ∨ ' ' :: v <:+ ' ' :: w :=
    List.suffix_or_suffix_of_suffix ⟨a, h⟩ ⟨b, rfl⟩
  have heq : ' ' :: w = ' ' :: v := by
    rcases hsuffix with hs | hs
    · exact (List.suffix_cons_iff.mp hs).resolve_right (hv.not_suffix hw)
    · exact ((List.suffix_cons_iff.mp hs).resolve_right (hw.not_suffix hv)).symm
  rw [heq] at h
  exact ⟨List.append_cancel_right h, (List.cons.inj heq).2⟩

end Word

/-- What stands before the first of a character, and what stands behind, are determined. -/
theorem cut_cancel {c : Char} {a b r s : List Char} (ha : c ∉ a) (hb : c ∉ b)
    (h : a ++ c :: r = b ++ c :: s) : a = b ∧ r = s := by
  have hcut := congrArg (cut? c) h
  rw [cut?_append ha, cut?_append hb] at hcut
  exact Prod.mk.inj (Option.some.inj hcut)

end BigStep.Text
