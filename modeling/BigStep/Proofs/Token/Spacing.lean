import BigStep.Proofs.Token.Munch

/-!
# Spacing of tokens

Layout between two texts keeps them apart: what they spell together is what each of them spells.

* `Apart`: a text that is empty or begins with layout. Nothing before it goes on in it.
* `spells_append_iff`: a text in front of one that stands apart is read as if it were alone.
* `spaced gaps lexemes last`: lexemes with layout around them.
* `spells_spaced`: tokens with layout between them are spelled, however much there is of it.
* `Spells.exists_spaced`: every text that is spelled consists of its tokens and layout.
-/

namespace BigStep

/-- The text is empty or begins with layout. -/
def Apart (rest : List Char) : Prop := ∀ c ∈ rest.head?, isLayout c = true

theorem apart_cons {c : Char} {cs : List Char} (h : isLayout c = true) : Apart (c :: cs) := by
  rintro _ ⟨⟩
  exact h

/-- Layout that is not empty sets what stands behind it apart. -/
theorem apart_append {gap : List Char} (hgap : gap.all isLayout = true) {rest : List Char}
    (h : gap = [] → Apart rest) : Apart (gap ++ rest) := by
  cases gap with
  | nil => exact h rfl
  | cons c cs =>
    simp only [List.all_cons, Bool.and_eq_true] at hgap
    exact apart_cons hgap.1

section Append

variable {cs ds : List Char} {ts : List Token}

/-- A run of characters that are no layout ends before a text that stands apart. -/
theorem Apart.takeWhile_append {p : Char → Bool} (hp : ∀ c, p c = true → isLayout c = false)
    (hds : Apart ds) (cs : List Char) :
    (cs ++ ds).takeWhile p = cs.takeWhile p ∧ (cs ++ ds).dropWhile p = cs.dropWhile p ++ ds := by
  induction cs with
  | nil =>
    cases ds with
    | nil => exact ⟨rfl, rfl⟩
    | cons d ds =>
      have hd : p d = false := Bool.eq_false_iff.mpr fun h => by
        have := hp d h
        rw [hds d rfl] at this
        cases this
      simp [hd]
  | cons c cs ih =>
    by_cases hc : p c = true
    · simp [hc, ih]
    · simp [hc]

/-- An item is read in the same way where a text that stands apart is put behind. -/
theorem readItem_append (hds : Apart ds) (c : Char) (cs : List Char) :
    readItem c (cs ++ ds) =
      ⟨(readItem c cs).content, (readItem c cs).lexeme, (readItem c cs).rest ++ ds⟩ := by
  have hdigits := @Apart.takeWhile_append _ Char.isDigit
    (fun c hc => isLayout_of_isAlphanum (isAlphanum_of_isDigit hc)) hds cs
  have hword := @Apart.takeWhile_append _ Char.isAlphanum
    (fun c hc => isLayout_of_isAlphanum hc) hds cs
  have harrow : (cs ++ ds).head? = some '>' ↔ cs.head? = some '>' := by
    cases cs with
    | cons => rfl
    | nil => exact ⟨fun h => absurd (hds '>' h) (by decide), nofun⟩
  unfold readItem
  rw [hdigits.1, hdigits.2, hword.1, hword.2]
  simp only [harrow]
  split
  · rfl
  split
  · rfl
  split
  · next h =>
    obtain ⟨-, h⟩ := h
    cases cs with
    | nil => cases h
    | cons => rfl
  · cases Token.ofSymbol? c <;> rfl

/-- A text in front of one that stands apart is read as if it were alone. -/
theorem spells_append_iff (hds : Apart ds) : Spells (cs ++ ds) ts ↔
    ∃ ts₁ ts₂, ts = ts₁ ++ ts₂ ∧ Spells cs ts₁ ∧ Spells ds ts₂ := by
  constructor
  · intro h
    -- The induction is on the text: an item leaves a shorter one, and `ds` stays behind it.
    induction hn : cs.length using Nat.strongRecOn generalizing cs ts with
    | ind n ih =>
      cases cs with
      | nil => exact ⟨[], ts, rfl, .nil, h⟩
      | cons c cs =>
        rw [List.length_cons] at hn
        cases h with
        | layout hc h =>
          obtain ⟨ts₁, ts₂, rfl, h₁, h₂⟩ := ih _ (by omega) h rfl
          exact ⟨ts₁, ts₂, rfl, .layout hc h₁, h₂⟩
        | token hc ht h =>
          simp only [List.append_eq, readItem_append hds] at ht h
          have hlength := readItem_rest_length_le c cs
          obtain ⟨ts₁, ts₂, rfl, h₁, h₂⟩ := ih _ (by omega) h rfl
          exact ⟨_ :: ts₁, ts₂, rfl, .token hc ht h₁, h₂⟩
  · rintro ⟨ts₁, ts₂, rfl, h₁, h₂⟩
    induction h₁ with
    | nil => exact h₂
    | layout hc _ ih => exact .layout hc ih
    | token hc ht _ ih => exact .of_readItem hc ((readItem_append hds _ _).trans (by rw [ht])) ih

end Append

/-- Layout in front of a text plays no part. -/
theorem spells_layout_append {gap cs : List Char} {ts : List Token}
    (hgap : gap.all isLayout = true) : Spells (gap ++ cs) ts ↔ Spells cs ts := by
  rw [← spells_dropWhile, List.dropWhile_append_of_pos (List.all_eq_true.mp hgap),
    spells_dropWhile]

/-- The text of a token is that token. -/
theorem Token.Genuine.spells {t : Token} (h : t.Genuine) (hne : t.spelling ≠ "") :
    Spells t.spelling.toList [t] := by
  cases t with
  | number digits =>
    have := Spells.number h.1 h.2 boundary_nil .nil
    rwa [String.ofList_toList, List.append_nil] at this
  | ident name =>
    have := Spells.ident h boundary_nil .nil
    rwa [List.append_nil] at this
  | eof => exact absurd rfl hne
  | layout => exact absurd rfl hne
  | bool b => cases b <;> exact .of_readItem rfl rfl .nil
  | _ => exact .of_readItem rfl rfl .nil

/-! ## Lexemes with layout around them -/

/-- A gap in front of each lexeme, and one behind the last. -/
def spaced (gaps lexemes : List (List Char)) (last : List Char) : List Char :=
  (List.zipWith (· ++ ·) gaps lexemes).flatten ++ last

/-- There is a gap for each of `count` lexemes, and all gaps and the last one are layout. -/
structure Surrounds (count : Nat) (gaps : List (List Char)) (last : List Char) : Prop where
  length : gaps.length = count
  layout : ∀ gap ∈ gaps, gap.all isLayout = true
  last : last.all isLayout = true

/-- Besides, no gap between two lexemes is empty. -/
structure Separates (count : Nat) (gaps : List (List Char)) (last : List Char) : Prop
    extends Surrounds count gaps last where
  apart : ∀ gap ∈ gaps.tail, gap ≠ []

theorem spaced_cons (gap lexeme : List Char) (gaps lexemes : List (List Char)) (last : List Char) :
    spaced (gap :: gaps) (lexeme :: lexemes) last = gap ++ (lexeme ++ spaced gaps lexemes last) := by
  simp [spaced]

/-- Behind the first lexeme the text stands apart. -/
theorem Separates.apart_tail {count : Nat} {gap : List Char} {gaps : List (List Char)}
    {last : List Char} (h : Separates count (gap :: gaps) last) (lexemes : List (List Char)) :
    Apart (spaced gaps lexemes last) := by
  have hlast : Apart last := by
    rw [← List.append_nil last]
    exact apart_append h.last fun _ => nofun
  cases gaps with
  | nil => exact hlast
  | cons gap' gaps =>
    cases lexemes with
    | nil => exact hlast
    | cons lexeme lexemes =>
      rw [spaced_cons]
      refine apart_append (h.layout gap' (by simp)) fun hnil => ?_
      exact absurd hnil (h.apart gap' (by simp))

theorem Separates.tail {count : Nat} {gap : List Char} {gaps : List (List Char)}
    {last : List Char} (h : Separates (count + 1) (gap :: gaps) last) :
    Separates count gaps last where
  length := Nat.succ.inj h.length
  layout _ hgap := h.layout _ (List.mem_cons_of_mem _ hgap)
  last := h.last
  apart _ hgap := h.apart _ (List.mem_of_mem_tail hgap)

/-- Tokens with layout between them are spelled, however much there is of it. -/
theorem spells_spaced {ts : List Token} (hts : ∀ t ∈ ts, t.Genuine ∧ t.spelling ≠ "")
    {gaps : List (List Char)} {last : List Char} (h : Separates ts.length gaps last) :
    Spells (spaced gaps (ts.map (·.spelling.toList)) last) ts := by
  induction ts generalizing gaps with
  | nil =>
    obtain rfl := List.length_eq_zero_iff.mp h.length
    have hspells := (spells_layout_append h.last).mpr .nil
    rwa [List.append_nil] at hspells
  | cons t ts ih =>
    obtain ⟨gap, gaps, rfl⟩ := List.exists_cons_of_length_eq_add_one h.length
    obtain ⟨⟨hgenuine, hne⟩, hts⟩ := List.forall_mem_cons.mp hts
    rw [List.map_cons, spaced_cons, spells_layout_append (h.layout gap List.mem_cons_self),
      spells_append_iff (h.apart_tail _)]
    exact ⟨[t], ts, rfl, hgenuine.spells hne, ih hts h.tail⟩

/-- A text that is spelled consists of its tokens and layout. -/
theorem Spells.exists_spaced {cs : List Char} {ts : List Token} (h : Spells cs ts) :
    ∃ gaps last, Surrounds ts.length gaps last ∧
      cs = spaced gaps (ts.map (·.spelling.toList)) last := by
  induction h with
  | nil => exact ⟨[], [], ⟨rfl, nofun, rfl⟩, rfl⟩
  | @layout c cs ts hc _ ih =>
    obtain ⟨gaps, last, ⟨hlength, hgaps, hlast⟩, rfl⟩ := ih
    cases ts with
    | nil =>
      obtain rfl := List.length_eq_zero_iff.mp hlength
      exact ⟨[], c :: last, ⟨rfl, nofun, by simp [hc, hlast]⟩, rfl⟩
    | cons t ts =>
      obtain ⟨gap, gaps, rfl⟩ := List.exists_cons_of_length_eq_add_one hlength
      obtain ⟨hgap, hgaps⟩ := List.forall_mem_cons.mp hgaps
      have hlayout : (c :: gap).all isLayout = true := by simp [hc, hgap]
      refine ⟨(c :: gap) :: gaps, last, ⟨hlength, ?_, hlast⟩, by simp [spaced_cons]⟩
      exact List.forall_mem_cons.mpr ⟨hlayout, hgaps⟩
  | @token c cs t ts hc ht _ ih =>
    obtain ⟨gaps, last, ⟨hlength, hgaps, hlast⟩, hrest⟩ := ih
    refine ⟨[] :: gaps, last, ⟨by simp [hlength], ?_, hlast⟩, ?_⟩
    · exact List.forall_mem_cons.mpr ⟨rfl, hgaps⟩
    · rw [List.map_cons, spaced_cons, ← hrest, ← (readItem_of_ok ht).1]
      exact (lexeme_append_rest c cs).symm

/-- The tokens that a text spells have texts of their own. -/
theorem Spells.spelling_ne {cs : List Char} {ts : List Token} (h : Spells cs ts) :
    ∀ t ∈ ts, t.spelling ≠ "" := by
  induction h with
  | nil => nofun
  | layout _ _ ih => exact ih
  | @token c cs t ts _ ht _ ih =>
    refine List.forall_mem_cons.mpr ⟨fun hnil => lexeme_ne_nil c cs ?_, ih⟩
    rw [(readItem_of_ok ht).1, hnil]
    rfl

end BigStep
