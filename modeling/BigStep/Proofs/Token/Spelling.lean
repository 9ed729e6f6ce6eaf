import BigStep.Token.Lexer

/-!
# Spelling of tokens

* `IsIdentifier`: the texts that can be names.
* `Spells cs ts`: the characters, read from the left, spell these tokens. Positions play no part.
* `Token.Genuine`: what the lexer ensures of the text that a token carries.
* `tokenize_of_spells`, `spells_of_tokenize`: the lexer succeeds just on the texts that spell
  something, with the tokens that they spell and `eof`.
-/

namespace BigStep

/-- The words that are no names: the keywords and the truth values. -/
def reserved : List String :=
  ["fun", "let", "rec", "in", "if", "then", "else", "true", "false"]

/-- The text can be a name: letters and digits, first a letter, and not a reserved word. -/
def IsIdentifier (name : String) : Prop :=
  name.toList.head?.any Char.isAlpha = true ∧ name.toList.all Char.isAlphanum = true ∧
    name ∉ reserved

instance : DecidablePred IsIdentifier := fun _ => inferInstanceAs (Decidable (_ ∧ _ ∧ _))

theorem Token.ofWord_of_not_mem {word : String} (h : word ∉ reserved) :
    ofWord word = .ident word := by
  unfold ofWord
  split <;> first | rfl | exact absurd (by decide) h

theorem IsIdentifier.exists_cons {name : String} (h : IsIdentifier name) :
    ∃ c cs, name.toList = c :: cs ∧ c.isAlpha = true ∧ cs.all Char.isAlphanum = true := by
  obtain ⟨hhead, hall, -⟩ := h
  cases hn : name.toList with
  | nil => simp [hn] at hhead
  | cons c cs =>
    rw [hn] at hhead hall
    simp only [List.all_cons, Bool.and_eq_true] at hall
    exact ⟨c, cs, rfl, by simpa using hhead, hall.2⟩

/-- The characters spell the tokens: layout is skipped, and each token is as long as it can be. -/
inductive Spells : List Char → List Token → Prop
  | nil : Spells [] []
  | layout {c : Char} {cs : List Char} {ts : List Token} (hc : isLayout c = true)
      (h : Spells cs ts) : Spells (c :: cs) ts
  | token {c : Char} {cs : List Char} {t : Token} {ts : List Token} (hc : isLayout c = false)
      (ht : (readItem c cs).content = .ok t) (h : Spells (readItem c cs).rest ts) :
      Spells (c :: cs) (t :: ts)

/-- Names are identifiers, and numbers are made of digits. The end of the text is not spelled. -/
def Token.Genuine : Token → Prop
  | ident name => IsIdentifier name
  | number digits => digits.toList ≠ [] ∧ digits.toList.all Char.isDigit = true
  | eof => False
  | _ => True

theorem Token.genuine_ofWord {word : String} (ha : word.toList.head?.any Char.isAlpha = true)
    (hw : word.toList.all Char.isAlphanum = true) : (ofWord word).Genuine := by
  by_cases hr : word ∈ reserved
  · simp only [reserved, List.mem_cons, List.not_mem_nil, or_false] at hr
    rcases hr with rfl | rfl | rfl | rfl | rfl | rfl | rfl | rfl | rfl <;> trivial
  · rw [ofWord_of_not_mem hr]
    exact ⟨ha, hw, hr⟩

theorem Token.genuine_of_ofSymbol? {c : Char} {t : Token} (h : ofSymbol? c = some t) :
    t.Genuine := by
  unfold ofSymbol? at h
  split at h <;> cases h <;> trivial

theorem genuine_of_readItem {c : Char} {cs : List Char} {t : Token}
    (h : (readItem c cs).content = .ok t) : t.Genuine := by
  unfold readItem at h
  split at h
  · next hc =>
    cases h
    simp [Token.Genuine, hc]
  split at h
  · next hc =>
    cases h
    exact Token.genuine_ofWord (by simp [hc]) (by simp [hc, Char.isAlphanum])
  split at h
  · cases h
    trivial
  · split at h
    · next ht =>
      cases h
      exact Token.genuine_of_ofSymbol? ht
    · cases h

theorem Spells.genuine {cs : List Char} {ts : List Token} (h : Spells cs ts) :
    ∀ t ∈ ts, t.Genuine := by
  induction h with
  | nil => simp
  | layout _ _ ih => exact ih
  | token _ ht _ ih => exact List.forall_mem_cons.mpr ⟨genuine_of_readItem ht, ih⟩

theorem spells_dropWhile {cs : List Char} {ts : List Token} :
    Spells (cs.dropWhile isLayout) ts ↔ Spells cs ts := by
  induction cs with
  | nil => rfl
  | cons c cs ih =>
    by_cases hc : isLayout c = true
    · rw [List.dropWhile_cons_of_pos hc, ih]
      constructor
      · exact .layout hc
      · intro h
        cases h with
        | layout _ h => exact h
        | token hc' _ _ => simp [hc] at hc'
    · rw [List.dropWhile_cons_of_neg hc]

/-! ## Spelling piece by piece

Each lemma puts one token in front of a text that is spelled already. A word or a number has to end
where the text behind it begins. -/

theorem isDigit_of_isAlpha {c : Char} (h : c.isAlpha = true) : c.isDigit = false := by
  change (decide (c.val ≥ 65 ∧ c.val ≤ 90) || (c.val ≥ 97 && c.val ≤ 122)) = true at h
  change (c.val ≥ 48 && c.val ≤ 57) = false
  grind

theorem isAlphanum_of_isDigit {c : Char} (h : c.isDigit = true) : c.isAlphanum = true := by
  simp [Char.isAlphanum, h]

theorem isAlphanum_of_isAlpha {c : Char} (h : c.isAlpha = true) : c.isAlphanum = true := by
  simp [Char.isAlphanum, h]

theorem isLayout_of_isAlphanum {c : Char} (h : c.isAlphanum = true) : isLayout c = false := by
  rw [Bool.eq_false_iff]
  intro hl
  simp only [isLayout, Bool.or_eq_true, beq_iff_eq] at hl
  rcases hl with (((rfl | rfl) | rfl) | rfl) | rfl <;> revert h <;> decide

/-- The text does not begin with a letter or a digit. -/
def Boundary (rest : List Char) : Prop := ∀ c ∈ rest.head?, c.isAlphanum = false

theorem boundary_nil : Boundary [] := nofun

theorem boundary_cons {c : Char} {cs : List Char} (h : c.isAlphanum = false) :
    Boundary (c :: cs) := by
  rintro _ ⟨⟩
  exact h

theorem boundary_text {text : String} {rest : List Char}
    (h : text.toList.head?.any (fun c => !c.isAlphanum) = true) :
    Boundary (text.toList ++ rest) := by
  cases ht : text.toList with
  | nil => simp [ht] at h
  | cons c cs => exact boundary_cons (by simpa [ht] using h)

/-- A run of characters of a class ends at a boundary, if the class has only letters and digits. -/
theorem Boundary.takeWhile_append {p : Char → Bool} (hp : ∀ c, p c = true → c.isAlphanum = true)
    {cs rest : List Char} (hcs : cs.all p = true) (hb : Boundary rest) :
    (cs ++ rest).takeWhile p = cs ∧ (cs ++ rest).dropWhile p = rest := by
  rw [List.all_eq_true] at hcs
  rw [List.takeWhile_append_of_pos hcs, List.dropWhile_append_of_pos hcs]
  cases rest with
  | nil => simp
  | cons c rest =>
    have hc : p c = false := Bool.eq_false_iff.mpr fun h => by
      have := hp c h
      rw [hb c rfl] at this
      cases this
    simp [hc]

theorem Spells.of_readItem {c : Char} {cs lexeme rest : List Char} {t : Token} {ts : List Token}
    (hc : isLayout c = false) (hitem : readItem c cs = ⟨.ok t, lexeme, rest⟩) (h : Spells rest ts) :
    Spells (c :: cs) (t :: ts) :=
  .token hc (by rw [hitem]) (by rwa [hitem])

theorem Spells.word {c : Char} {cs rest : List Char} {ts : List Token} (hc : c.isAlpha = true)
    (hcs : cs.all Char.isAlphanum = true) (hb : Boundary rest) (h : Spells rest ts) :
    Spells (c :: cs ++ rest) (Token.ofWord (String.ofList (c :: cs)) :: ts) := by
  obtain ⟨htake, hdrop⟩ := hb.takeWhile_append (fun _ h => h) hcs
  have hitem : readItem c (cs ++ rest) =
      ⟨.ok (Token.ofWord (String.ofList (c :: cs))), c :: cs, rest⟩ := by
    simp [readItem, isDigit_of_isAlpha hc, hc, htake, hdrop]
  exact .of_readItem (isLayout_of_isAlphanum (isAlphanum_of_isAlpha hc)) hitem h

theorem Spells.ident {name : String} {rest : List Char} {ts : List Token}
    (hname : IsIdentifier name) (hb : Boundary rest) (h : Spells rest ts) :
    Spells (name.toList ++ rest) (.ident name :: ts) := by
  obtain ⟨c, cs, hcs, hc, hall⟩ := hname.exists_cons
  have hword := h.word hc hall hb
  rwa [← hcs, String.ofList_toList, Token.ofWord_of_not_mem hname.2.2] at hword

theorem Spells.number {digits rest : List Char} {ts : List Token} (hne : digits ≠ [])
    (hdigits : digits.all Char.isDigit = true) (hb : Boundary rest) (h : Spells rest ts) :
    Spells (digits ++ rest) (.number (String.ofList digits) :: ts) := by
  obtain ⟨c, cs, rfl⟩ := List.exists_cons_of_ne_nil hne
  simp only [List.all_cons, Bool.and_eq_true] at hdigits
  obtain ⟨htake, hdrop⟩ := hb.takeWhile_append (fun _ h => isAlphanum_of_isDigit h) hdigits.2
  have hitem : readItem c (cs ++ rest) =
      ⟨.ok (.number (String.ofList (c :: cs))), c :: cs, rest⟩ := by
    simp [readItem, hdigits.1, htake, hdrop]
  exact .of_readItem (isLayout_of_isAlphanum (isAlphanum_of_isDigit hdigits.1)) hitem h

/-! ## The lexer -/

namespace Cursor

/-- Where a text goes on after its layout, it goes on with a token. -/
theorem spells_cons_iff {c : Char} {cs : List Char} {ts : List Token} (hc : isLayout c = false) :
    Spells (c :: cs) ts ↔ ∃ t ts', ts = t :: ts' ∧ (readItem c cs).content = .ok t ∧
      Spells (readItem c cs).rest ts' := by
  constructor
  · intro h
    cases h with
    | layout hc' _ => simp [hc] at hc'
    | token _ ht h => exact ⟨_, _, rfl, ht, h⟩
  · rintro ⟨t, ts', rfl, ht, h⟩
    exact .token hc ht h

theorem isLayout_of_skipLayout {c : Cursor} {char : Char} {chars : List Char}
    (h : c.skipLayout.rest = char :: chars) : isLayout char = false := by
  have := List.head?_dropWhile_not isLayout c.rest
  simp only [skipLayout] at h
  simpa [h] using this

theorem items_of_nil {c : Cursor} (h : c.skipLayout.rest = []) :
    c.items = [.ok ⟨.eof, c.skipLayout.position⟩] := by
  rw [items, if_pos h]
  simp [next, h]

theorem items_of_cons {c : Cursor} {char : Char} {chars : List Char}
    (h : c.skipLayout.rest = char :: chars) :
    c.items = locate c.skipLayout.position (readItem char chars).content :: c.next.2.items ∧
      c.next.2.rest = (readItem char chars).rest := by
  rw [items, if_neg (by simp [h])]
  simp [next, h]

theorem mapM_items_of_nil {c : Cursor} (h : c.skipLayout.rest = []) :
    c.items.mapM id = .ok [⟨.eof, c.skipLayout.position⟩] := by
  rw [items_of_nil h]
  rfl

/-- The items of a text succeed just if the first one is a token and the others succeed. -/
theorem mapM_items_of_cons {c : Cursor} {char : Char} {chars : List Char}
    (h : c.skipLayout.rest = char :: chars) {located : List Located} :
    c.items.mapM id = .ok located ↔ ∃ t later, (readItem char chars).content = .ok t ∧
      c.next.2.items.mapM id = .ok later ∧ located = ⟨t, c.skipLayout.position⟩ :: later := by
  rw [(items_of_cons h).1, List.mapM_cons]
  cases hc : (readItem char chars).content with
  | error e => simp [locate, bind, Except.bind]
  | ok t =>
    cases hi : c.next.2.items.mapM id with
    | error e => simp [locate, bind, Except.bind]
    | ok later => simp [locate, bind, Except.bind, pure, Except.pure, eq_comm]

/-- A text on which the lexer succeeds spells the tokens that it gives. -/
theorem spells_of_mapM_items {c : Cursor} {located : List Located}
    (h : c.items.mapM id = .ok located) :
    ∃ ts, located.map (·.token) = ts ++ [.eof] ∧ Spells c.rest ts := by
  induction c using items.induct generalizing located with
  | case1 c hnil =>
    rw [mapM_items_of_nil hnil] at h
    cases h
    have hspells : Spells c.skipLayout.rest [] := hnil ▸ .nil
    exact ⟨[], rfl, spells_dropWhile.mp hspells⟩
  | case2 c hne ih =>
    obtain ⟨char, chars, hcons⟩ := List.exists_cons_of_ne_nil hne
    obtain ⟨t, later, ht, hlater, rfl⟩ := (mapM_items_of_cons hcons).mp h
    obtain ⟨ts, hts, hspells⟩ := ih hlater
    rw [(items_of_cons hcons).2] at hspells
    have hskip : Spells c.skipLayout.rest (t :: ts) :=
      hcons ▸ .token (isLayout_of_skipLayout hcons) ht hspells
    exact ⟨t :: ts, by simp [hts], spells_dropWhile.mp hskip⟩

/-- On a text that spells some tokens, the lexer gives these. -/
theorem mapM_items_of_spells {c : Cursor} {ts : List Token} (h : Spells c.rest ts) :
    ∃ located, c.items.mapM id = .ok located ∧ located.map (·.token) = ts ++ [.eof] := by
  have hskip : Spells c.skipLayout.rest ts := spells_dropWhile.mpr h
  induction c using items.induct generalizing ts with
  | case1 c hnil =>
    rw [hnil] at hskip
    cases hskip
    exact ⟨_, mapM_items_of_nil hnil, rfl⟩
  | case2 c hne ih =>
    obtain ⟨char, chars, hcons⟩ := List.exists_cons_of_ne_nil hne
    rw [hcons, spells_cons_iff (isLayout_of_skipLayout hcons)] at hskip
    obtain ⟨t, ts', rfl, ht, hrest⟩ := hskip
    rw [← (items_of_cons hcons).2] at hrest
    obtain ⟨later, hlater, hts⟩ := ih hrest (spells_dropWhile.mpr hrest)
    exact ⟨_, (mapM_items_of_cons hcons).mpr ⟨t, later, ht, hlater, rfl⟩, by simp [hts]⟩

end Cursor

/-- The tokens that the lexer gives are spelled by the text, up to the end. -/
theorem spells_of_tokenize {source : String} {located : List Located}
    (h : tokenize source = .ok located) :
    ∃ ts, located.map (·.token) = ts ++ [.eof] ∧ Spells source.toList ts :=
  Cursor.spells_of_mapM_items h

/-- The lexer gives the tokens that the text spells. -/
theorem tokenize_of_spells {source : String} {ts : List Token} (h : Spells source.toList ts) :
    ∃ located, tokenize source = .ok located ∧ located.map (·.token) = ts ++ [.eof] :=
  Cursor.mapM_items_of_spells (c := Cursor.start source) h

end BigStep
