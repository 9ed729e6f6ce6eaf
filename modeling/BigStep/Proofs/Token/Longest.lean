import Mathlib.Data.List.Nodup
import BigStep.Proofs.Token.Munch
import BigStep.Token.Pattern

/-!
# The lexer takes the longest match

What `readItem` finds is what the table of patterns says: the longest match, by the pattern that
says most about it, or one character if no token begins with it.

* `Pattern.Match c l p`: what each pattern of the table accepts, by the first character. The table
  is gone through once, in `match_of_accepts`.
* `TokenRule.Wins.unique`: at most one rule wins at a place, with one lexeme.
* `readItem_wins`: the rule that wins is the one whose token is read.
* `readItem_eq_ok_iff`: the table determines what is read.
* `readItem_eq_error_iff`: an error is one character that begins no match.
* `Cursor.next_of_layout`: layout is what its own rule takes, and is passed over.
-/

namespace BigStep

/-! ## What the patterns accept -/

theorem isAlpha_of_reserved {c : Char} {l : List Char} (h : String.ofList (c :: l) ∈ reserved) :
    c.isAlpha = true ∧ l.all Char.isAlphanum = true := by
  have hall : ∀ word ∈ reserved, word.toList.head?.any Char.isAlpha = true ∧
      word.toList.tail.all Char.isAlphanum = true := by decide +kernel
  simpa using hall _ h

theorem class_of_mem_symbols {c : Char} (h : c ∈ symbols) :
    c.isDigit = false ∧ c.isAlpha = false ∧ isLayout c = false := by
  have hall : symbols.all (fun c => !c.isDigit && !c.isAlpha && !isLayout c) = true := by decide
  simpa [and_assoc] using List.all_eq_true.mp hall c h

/-- A pattern of the table accepts a text that begins with `c` and goes on with `l`. The cases are
told apart by the first character. -/
inductive Pattern.Match (c : Char) (l : List Char) : Pattern → Prop
  | number (hc : c.isDigit = true) (hl : l.all Char.isDigit = true) : Match c l (.run .digit .digit)
  | word {p : Pattern} (hc : c.isAlpha = true) (hl : l.all Char.isAlphanum = true)
      (hp : p = .run .letter .letterOrDigit ∨
        String.ofList (c :: l) ∈ reserved ∧ p = .text (String.ofList (c :: l))) : Match c l p
  | symbol {p : Pattern} (hc : c ∈ symbols)
      (hp : (c = '-' ∧ l = ['>'] ∧ p = .text "->") ∨ (l = [] ∧ p = .text (String.ofList [c]))) :
      Match c l p
  | layout (hc : isLayout c = true) (hl : l.all isLayout = true) : Match c l (.run .layout .layout)

namespace TokenRule

theorem accepts_nil : ∀ rule ∈ table, rule.pattern.accepts [] = false := by decide

/-- The patterns of the table: three classes of words, and the texts of the reserved words and of
the symbols. -/
theorem pattern_of_mem_table : ∀ rule ∈ table, rule.pattern = .run .digit .digit ∨
    rule.pattern = .run .letter .letterOrDigit ∨ rule.pattern = .run .layout .layout ∨
    rule.pattern ∈ reserved.map .text ∨ rule.pattern = .text "->" ∨
    rule.pattern ∈ symbols.map fun c => .text (String.ofList [c]) := by
  decide +kernel

theorem match_of_accepts {rule : TokenRule} (hmem : rule ∈ table) {c : Char} {l : List Char}
    (h : rule.pattern.accepts (c :: l) = true) : rule.pattern.Match c l := by
  have hpattern := pattern_of_mem_table rule hmem
  generalize rule.pattern = p at h hpattern
  rw [List.mem_map, List.mem_map] at hpattern
  rcases hpattern with rfl | rfl | rfl | ⟨word, hword, rfl⟩ | rfl | ⟨d, hd, rfl⟩ <;>
    simp only [Pattern.accepts, CharClass.contains, Bool.and_eq_true, beq_iff_eq] at h
  · exact .number h.1 h.2
  · exact .word h.1 h.2 (.inl rfl)
  · exact .layout h.1 h.2
  · obtain rfl : word = String.ofList (c :: l) := by rw [h, String.ofList_toList]
    obtain ⟨hc, hl⟩ := isAlpha_of_reserved hword
    exact .word hc hl (.inr ⟨hword, rfl⟩)
  · obtain ⟨rfl, rfl⟩ : c = '-' ∧ l = ['>'] := by simpa using h
    exact .symbol (by decide) (.inl ⟨rfl, rfl, rfl⟩)
  · obtain ⟨rfl, rfl⟩ : c = d ∧ l = [] := by simpa using h
    exact .symbol hd (.inr ⟨rfl, rfl⟩)

end TokenRule

namespace Pattern.Match

variable {c : Char} {l : List Char} {p : Pattern}

theorem of_isDigit (h : p.Match c l) (hc : c.isDigit = true) :
    p = .run .digit .digit ∧ l.all Char.isDigit = true := by
  cases h with
  | number _ hl => exact ⟨rfl, hl⟩
  | word hletter => simp [isDigit_of_isAlpha hletter] at hc
  | symbol hsymbol => simp [(class_of_mem_symbols hsymbol).1] at hc
  | layout hlayout => simp [isLayout_of_isAlphanum (isAlphanum_of_isDigit hc)] at hlayout

theorem of_isAlpha (h : p.Match c l) (hc : c.isAlpha = true) :
    l.all Char.isAlphanum = true ∧ (p = .run .letter .letterOrDigit ∨
      String.ofList (c :: l) ∈ reserved ∧ p = .text (String.ofList (c :: l))) := by
  cases h with
  | number hdigit => simp [isDigit_of_isAlpha hc] at hdigit
  | word _ hl hp => exact ⟨hl, hp⟩
  | symbol hsymbol => simp [(class_of_mem_symbols hsymbol).2.1] at hc
  | layout hlayout => simp [isLayout_of_isAlphanum (isAlphanum_of_isAlpha hc)] at hlayout

theorem of_mem_symbols (h : p.Match c l) (hc : c ∈ symbols) :
    (c = '-' ∧ l = ['>'] ∧ p = .text "->") ∨ (l = [] ∧ p = .text (String.ofList [c])) := by
  obtain ⟨hnodigit, hnoletter, hnolayout⟩ := class_of_mem_symbols hc
  cases h with
  | number hdigit => simp [hnodigit] at hdigit
  | word hletter => simp [hnoletter] at hletter
  | symbol _ hp => exact hp
  | layout hlayout => simp [hnolayout] at hlayout

theorem of_isLayout (h : p.Match c l) (hc : isLayout c = true) :
    p = .run .layout .layout ∧ l.all isLayout = true := by
  cases h with
  | number hdigit => simp [isLayout_of_isAlphanum (isAlphanum_of_isDigit hdigit)] at hc
  | word hletter => simp [isLayout_of_isAlphanum (isAlphanum_of_isAlpha hletter)] at hc
  | symbol hsymbol => simp [(class_of_mem_symbols hsymbol).2.2] at hc
  | layout _ hl => exact ⟨rfl, hl⟩

/-- What a match begins with is a digit, a letter, a symbol or layout. -/
theorem starts (h : p.Match c l) : c.isAlphanum = true ∨ c ∈ symbols ∨ isLayout c = true := by
  cases h with
  | number hdigit => exact .inl (isAlphanum_of_isDigit hdigit)
  | word hletter => exact .inl (isAlphanum_of_isAlpha hletter)
  | symbol hsymbol => exact .inr (.inl hsymbol)
  | layout hlayout => exact .inr (.inr hlayout)

end Pattern.Match

/-! ## Winners -/

theorem length_le_takeWhile {q : Char → Bool} {l cs : List Char} (h : l <+: cs)
    (hl : l.all q = true) : l.length ≤ (cs.takeWhile q).length := by
  obtain ⟨rest, rfl⟩ := h
  rw [List.takeWhile_append_of_pos (List.all_eq_true.mp hl), List.length_append]
  exact Nat.le_add_right _ _

namespace TokenRule

/-- A rule wins if it does among the matches that begin with the first character. -/
theorem wins_of_matches {rule : TokenRule} (hmem : rule ∈ table) {c : Char} {lexeme cs : List Char}
    (hstarts : lexeme <+: cs) (haccepts : rule.pattern.accepts (c :: lexeme) = true)
    (hlongest : ∀ p l, Pattern.Match c l p → l <+: cs → l.length ≤ lexeme.length)
    (hhighest : ∀ p, Pattern.Match c lexeme p →
      p = rule.pattern ∨ p.priority < rule.pattern.priority) :
    rule.Wins (c :: lexeme) (c :: cs) := by
  refine ⟨hmem, List.cons_prefix_cons.mpr ⟨rfl, hstarts⟩, haccepts,
    fun other hother l htext h => ?_, fun other hother h => hhighest _ (match_of_accepts hother h)⟩
  cases l with
  | nil => exact Nat.zero_le _
  | cons d l =>
    obtain ⟨rfl, hl⟩ := List.cons_prefix_cons.mp htext
    exact Nat.succ_le_succ (hlongest _ l (match_of_accepts hother h) hl)

/-- The lexeme is what the longest match has, and the rule the one with the highest priority: both
are determined by the text. -/
theorem Wins.unique {rule₁ rule₂ : TokenRule} {lexeme₁ lexeme₂ text : List Char}
    (h₁ : rule₁.Wins lexeme₁ text) (h₂ : rule₂.Wins lexeme₂ text) :
    lexeme₁ = lexeme₂ ∧ rule₁ = rule₂ := by
  have hle₁ := h₂.longest rule₁ h₁.mem_table lexeme₁ h₁.starts h₁.accepts
  have hle₂ := h₁.longest rule₂ h₂.mem_table lexeme₂ h₂.starts h₂.accepts
  obtain rfl : lexeme₁ = lexeme₂ :=
    (List.prefix_of_prefix_length_le h₁.starts h₂.starts hle₁).eq_of_length_le hle₂
  have hpattern : rule₁.pattern = rule₂.pattern := by
    rcases h₁.highest rule₂ h₂.mem_table h₂.accepts with heq | hlt
    · exact heq.symm
    · rcases h₂.highest rule₁ h₁.mem_table h₁.accepts with heq | hlt'
      · exact heq
      · omega
  have hnodup : (table.map (·.pattern)).Nodup := by decide
  exact ⟨rfl, List.inj_on_of_nodup_map hnodup h₁.mem_table h₂.mem_table hpattern⟩

theorem wins_number {c : Char} (hc : c.isDigit = true) (cs : List Char) :
    Wins ⟨.run .digit .digit, .number⟩ (c :: cs.takeWhile Char.isDigit) (c :: cs) := by
  refine wins_of_matches (by simp [table]) (List.takeWhile_prefix _) ?_ ?_ ?_
  · simp only [Pattern.accepts, CharClass.contains, hc, List.all_takeWhile, Bool.and_self]
  · exact fun p l h hl => length_le_takeWhile hl (h.of_isDigit hc).2
  · exact fun p h => .inl (h.of_isDigit hc).1

theorem wins_layout {c : Char} (hc : isLayout c = true) (cs : List Char) :
    Wins ⟨.run .layout .layout, fun _ => .layout⟩ (c :: cs.takeWhile isLayout) (c :: cs) := by
  refine wins_of_matches (by simp [table]) (List.takeWhile_prefix _) ?_ ?_ ?_
  · simp only [Pattern.accepts, CharClass.contains, hc, List.all_takeWhile, Bool.and_self]
  · exact fun p l h hl => length_le_takeWhile hl (h.of_isLayout hc).2
  · exact fun p h => .inl (h.of_isLayout hc).1

/-- Every reserved word has a rule of its own. -/
theorem exists_rule_of_reserved {word : String} (h : word ∈ reserved) :
    ∃ rule ∈ table, rule.pattern = .text word ∧ rule.token word = Token.ofWord word := by
  have hall : ∀ word ∈ reserved,
      ∃ rule ∈ table, rule.pattern = .text word ∧ rule.token word = Token.ofWord word := by
    decide +kernel
  exact hall word h

/-- A word is read by the rule for its text if it is reserved, as that rule says more about it, and
by the rule for identifiers otherwise. -/
theorem exists_wins_word {c : Char} (hc : c.isAlpha = true) (cs : List Char) :
    ∃ rule, Wins rule (c :: cs.takeWhile Char.isAlphanum) (c :: cs) ∧
      rule.token (String.ofList (c :: cs.takeWhile Char.isAlphanum)) =
        Token.ofWord (String.ofList (c :: cs.takeWhile Char.isAlphanum)) := by
  have hlongest : ∀ p l, Pattern.Match c l p → l <+: cs →
      l.length ≤ (cs.takeWhile Char.isAlphanum).length :=
    fun p l h hl => length_le_takeWhile hl (h.of_isAlpha hc).1
  by_cases hr : String.ofList (c :: cs.takeWhile Char.isAlphanum) ∈ reserved
  · obtain ⟨rule, hmem, hpattern, htoken⟩ := exists_rule_of_reserved hr
    refine ⟨rule, wins_of_matches hmem (List.takeWhile_prefix _) ?_ hlongest fun p h => ?_, htoken⟩
    · simp [hpattern, Pattern.accepts]
    · rw [hpattern]
      rcases (h.of_isAlpha hc).2 with rfl | ⟨-, rfl⟩
      · right
        simp only [Pattern.priority, String.length_ofList, List.length_cons]
        omega
      · exact .inl rfl
  · refine ⟨⟨.run .letter .letterOrDigit, .ident⟩, wins_of_matches (by simp [table])
      (List.takeWhile_prefix _) ?_ hlongest fun p h => ?_, (Token.ofWord_of_not_mem hr).symm⟩
    · simp only [Pattern.accepts, CharClass.contains, hc, List.all_takeWhile, Bool.and_self]
    · rcases (h.of_isAlpha hc).2 with rfl | ⟨hmem, -⟩
      · exact .inl rfl
      · exact absurd hmem hr

theorem wins_arrow (cs : List Char) :
    Wins ⟨.text "->", fun _ => .arrow⟩ ['-', '>'] ('-' :: '>' :: cs) := by
  refine wins_of_matches (by simp [table]) (by simp) (by decide) (fun p l h _ => ?_) fun p h => ?_
  · rcases h.of_mem_symbols (by decide) with ⟨-, rfl, -⟩ | ⟨rfl, -⟩ <;> simp
  · rcases h.of_mem_symbols (by decide) with ⟨-, -, rfl⟩ | ⟨hl, -⟩
    · exact .inl rfl
    · cases hl

/-- Every symbol has a rule of its own. -/
theorem exists_rule_of_symbol {c : Char} {t : Token} (h : Token.ofSymbol? c = some t) :
    c ∈ symbols ∧ ∃ rule ∈ table, rule.pattern = .text (String.ofList [c]) ∧
      rule.token (String.ofList [c]) = t := by
  unfold Token.ofSymbol? at h
  split at h <;> cases h <;> exact ⟨by decide, by decide +kernel⟩

/-- A symbol is read by its own rule, if it is not the first half of an arrow. -/
theorem exists_wins_symbol {c : Char} {t : Token} (ht : Token.ofSymbol? c = some t) {cs : List Char}
    (harrow : ¬ (c = '-' ∧ cs.head? = some '>')) :
    ∃ rule, Wins rule [c] (c :: cs) ∧ rule.token (String.ofList [c]) = t := by
  obtain ⟨hc, rule, hmem, hpattern, htoken⟩ := exists_rule_of_symbol ht
  refine ⟨rule, wins_of_matches hmem List.nil_prefix ?_ (fun p l h hl => ?_) fun p h => ?_, htoken⟩
  · simp [hpattern, Pattern.accepts]
  · rcases h.of_mem_symbols hc with ⟨hdash, rfl, -⟩ | ⟨rfl, -⟩
    · obtain ⟨rest, rfl⟩ := hl
      exact absurd ⟨hdash, rfl⟩ harrow
    · exact Nat.le_refl _
  · rcases h.of_mem_symbols hc with ⟨-, hl, -⟩ | ⟨-, rfl⟩
    · cases hl
    · exact .inl hpattern.symm

end TokenRule

/-! ## The lexer -/

/-- A token is read by the rule that wins. -/
theorem readItem_wins {c : Char} {cs : List Char} {t : Token} :
    (readItem c cs).content = .ok t →
      ∃ rule : TokenRule, rule.Wins (readItem c cs).lexeme (c :: cs) ∧
        rule.token (String.ofList (readItem c cs).lexeme) = t := by
  unfold readItem
  split
  · next hdigit =>
    rintro ⟨⟩
    exact ⟨_, TokenRule.wins_number hdigit cs, rfl⟩
  split
  · next hletter =>
    rintro ⟨⟩
    exact TokenRule.exists_wins_word hletter cs
  split
  · next harrow =>
    rintro ⟨⟩
    obtain ⟨rfl, hhead⟩ := harrow
    obtain ⟨rest, rfl⟩ := List.head?_eq_some_iff.mp hhead
    exact ⟨_, TokenRule.wins_arrow rest, rfl⟩
  next harrow =>
  split
  · next ht =>
    rintro ⟨⟩
    exact TokenRule.exists_wins_symbol ht harrow
  · nofun

/-- What begins no match is not accepted in front of anything. -/
theorem accepts_of_stray {c : Char} (hword : c.isAlphanum = false) (hsymbol : c ∉ symbols)
    (hlayout : isLayout c = false) :
    ∀ rule ∈ TokenRule.table, ∀ l, rule.pattern.accepts (c :: l) = false := by
  intro rule hmem l
  rw [Bool.eq_false_iff]
  intro h
  rcases (TokenRule.match_of_accepts hmem h).starts with hc | hc | hc
  · simp [hword] at hc
  · exact hsymbol hc
  · simp [hlayout] at hc

theorem exists_cons_of_wins {rule : TokenRule} {lexeme cs : List Char} {c : Char}
    (h : rule.Wins lexeme (c :: cs)) : ∃ l, lexeme = c :: l := by
  cases hl : lexeme with
  | nil =>
    have := h.accepts
    rw [hl, TokenRule.accepts_nil rule h.mem_table] at this
    cases this
  | cons d l =>
    obtain ⟨rfl, -⟩ := List.cons_prefix_cons.mp (hl ▸ h.starts)
    exact ⟨l, rfl⟩

/-- Behind layout there is an error just if no match begins with the character that is there; it
covers that one character. -/
theorem readItem_eq_error_iff {c : Char} {cs : List Char} (hc : isLayout c = false) :
    readItem c cs = ⟨.error c, [c], cs⟩ ↔
      ∀ rule ∈ TokenRule.table, ∀ l, rule.pattern.accepts (c :: l) = false := by
  constructor
  · intro h
    obtain ⟨-, -, hword, hsymbol⟩ := readItem_of_error (d := c) (by rw [h])
    exact accepts_of_stray hword hsymbol hc
  · intro h
    cases hcontent : (readItem c cs).content with
    | ok t =>
      obtain ⟨rule, hwins, -⟩ := readItem_wins hcontent
      obtain ⟨l, hl⟩ := exists_cons_of_wins hwins
      have haccepts := hwins.accepts
      rw [hl, h rule hwins.mem_table] at haccepts
      cases haccepts
    | error d =>
      obtain ⟨rfl, hlexeme, -, -⟩ := readItem_of_error hcontent
      have hrest := lexeme_append_rest d cs
      rw [hlexeme, List.singleton_append, List.cons.injEq] at hrest
      calc readItem d cs
        _ = ⟨(readItem d cs).content, (readItem d cs).lexeme, (readItem d cs).rest⟩ := rfl
        _ = ⟨.error d, [d], cs⟩ := by rw [hcontent, hlexeme, hrest.2]

/-- Behind layout, a token is what the table says: that of the rule with the longest match, and of
several such rules the one with the highest priority. -/
theorem readItem_eq_ok_iff {c : Char} {cs lexeme : List Char} {t : Token}
    (hc : isLayout c = false) :
    (readItem c cs).content = .ok t ∧ (readItem c cs).lexeme = lexeme ↔
      ∃ rule : TokenRule, rule.Wins lexeme (c :: cs) ∧ rule.token (String.ofList lexeme) = t := by
  constructor
  · rintro ⟨hcontent, rfl⟩
    exact readItem_wins hcontent
  · rintro ⟨rule, hwins, rfl⟩
    cases hcontent : (readItem c cs).content with
    | ok t =>
      obtain ⟨rule', hwins', htoken⟩ := readItem_wins hcontent
      obtain ⟨rfl, rfl⟩ := hwins.unique hwins'
      exact ⟨by rw [htoken], rfl⟩
    | error d =>
      obtain ⟨rfl, -, hword, hsymbol⟩ := readItem_of_error hcontent
      obtain ⟨l, rfl⟩ := exists_cons_of_wins hwins
      have haccepts := hwins.accepts
      rw [accepts_of_stray hword hsymbol hc rule hwins.mem_table] at haccepts
      cases haccepts

/-- Layout is what the rule for layout takes, and reading goes on behind it. -/
theorem Cursor.next_of_layout {c : Char} (hc : isLayout c = true) (cs : List Char)
    (position : Nat) :
    ∃ rule gap rest, TokenRule.Wins rule gap (c :: cs) ∧ rule.token (String.ofList gap) = .layout ∧
      c :: cs = gap ++ rest ∧ (⟨c :: cs, position⟩ : Cursor).next =
        (⟨rest, position + byteLength gap⟩ : Cursor).next := by
  refine ⟨_, _, cs.dropWhile isLayout, TokenRule.wins_layout hc cs, rfl, ?_, ?_⟩
  · rw [List.cons_append, List.takeWhile_append_dropWhile]
  · have hskip : (⟨c :: cs, position⟩ : Cursor).skipLayout = (⟨cs.dropWhile isLayout,
        position + byteLength (c :: cs.takeWhile isLayout)⟩ : Cursor).skipLayout := by
      cases hrest : cs.dropWhile isLayout with
      | nil => simp [skipLayout, hc, hrest, byteLength]
      | cons d ds =>
        have hd : isLayout d = false := head?_dropWhile d (by rw [hrest]; rfl)
        simp [skipLayout, hc, hrest, hd, byteLength]
    simp only [next, hskip]

end BigStep
