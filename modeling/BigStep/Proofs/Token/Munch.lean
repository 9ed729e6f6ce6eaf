import BigStep.Proofs.Token.Positions

/-!
# The lexer accounts for every byte

What the lexer gives for a text, whether or not all of it can be read: the text is cut into layout,
tokens and characters that belong to no token, and no part of it is left out.

* `Token.spelling`: the text of a token.
* `Token.Maximal t rest`: the token does not go on in the text behind it.
* `Segment`, `Cut`: a text as the lexer cuts it up. Each segment has layout in front and then a
  token, as long as it can be, or a character that belongs to none.
* `Segment.items`: the items that the segments give, with their byte offsets.
* `Cursor.exists_accounts`: the lexer cuts every text up, and gives the items of the segments.
* `strays`: the characters that belong to no token, found one by one by the character before.
  `Cut.mem_items_iff`: the errors are about these.
* `Cursor.items_account_for_source`: all of it for whole texts.
-/

namespace BigStep

/-! ## Texts of tokens -/

namespace Token

/-- The text of a token. The end has none, and layout is not kept. -/
def spelling : Token → String
  | number digits => digits
  | bool true => "true"
  | bool false => "false"
  | funKw => "fun"
  | letKw => "let"
  | recKw => "rec"
  | inKw => "in"
  | ifKw => "if"
  | thenKw => "then"
  | elseKw => "else"
  | ident name => name
  | arrow => "->"
  | equal => "="
  | plus => "+"
  | minus => "-"
  | asterisk => "*"
  | less => "<"
  | openParen => "("
  | closeParen => ")"
  | eof => ""
  | layout => ""

/-- The token does not go on in the text behind it: a number in no digit, a word in no letter or
digit, and a minus in no `>`. -/
structure Maximal (t : Token) (rest : List Char) : Prop where
  number : t.kind = .number → ∀ c ∈ rest.head?, c.isDigit = false
  word : t.spelling.toList.head?.any Char.isAlpha = true → Boundary rest
  minus : t = .minus → rest.head? ≠ some '>'

theorem spelling_ofWord (word : String) : (ofWord word).spelling = word := by
  unfold ofWord
  split <;> rfl

theorem spelling_of_ofSymbol? {c : Char} {t : Token} (h : ofSymbol? c = some t) :
    t.spelling.toList = [c] := by
  unfold ofSymbol? at h
  split at h <;> cases h <;> rfl

theorem maximal_ofWord (word : String) {rest : List Char} (h : Boundary rest) :
    (ofWord word).Maximal rest := by
  unfold ofWord
  split <;> exact ⟨nofun, fun _ => h, nofun⟩

theorem maximal_of_ofSymbol? {c : Char} {t : Token} (h : ofSymbol? c = some t) {rest : List Char}
    (hminus : c = '-' → rest.head? ≠ some '>') : t.Maximal rest := by
  have hword : t.spelling.toList.head?.any Char.isAlpha = false := by
    unfold ofSymbol? at h
    split at h <;> cases h <;> rfl
  have hkind : t.kind ≠ .number ∧ (t = .minus → c = '-') := by
    unfold ofSymbol? at h
    split at h <;> cases h <;> decide
  exact ⟨fun hk => absurd hk hkind.1, fun hw => by simp [hword] at hw,
    fun hm => hminus (hkind.2 hm)⟩

end Token

/-- The characters that are tokens by themselves. -/
def symbols : List Char := ['+', '-', '*', '=', '<', '(', ')']

theorem ofSymbol?_eq_none_iff {c : Char} : Token.ofSymbol? c = none ↔ c ∉ symbols := by
  constructor
  · intro h hc
    simp only [symbols, List.mem_cons, List.not_mem_nil, or_false] at hc
    rcases hc with rfl | rfl | rfl | rfl | rfl | rfl | rfl <;> cases h
  · intro h
    unfold Token.ofSymbol?
    split <;> first | rfl | exact absurd (by decide) h

theorem head?_dropWhile {p : Char → Bool} {cs : List Char} :
    ∀ c ∈ (cs.dropWhile p).head?, p c = false := by
  intro c hc
  have := List.head?_dropWhile_not p cs
  rw [Option.mem_def.mp hc] at this
  simpa using this

/-- A token is read from its own text, and does not go on behind it. -/
theorem readItem_of_ok {c : Char} {cs : List Char} {t : Token} :
    (readItem c cs).content = .ok t →
      (readItem c cs).lexeme = t.spelling.toList ∧ t.Maximal (readItem c cs).rest := by
  unfold readItem
  split
  · next hdigit =>
    rintro ⟨⟩
    refine ⟨String.toList_ofList.symm, fun _ => head?_dropWhile, fun hword => ?_, nofun⟩
    have hletter : c.isAlpha = true := by simpa [Token.spelling] using hword
    rw [isDigit_of_isAlpha hletter] at hdigit
    cases hdigit
  split
  · rintro ⟨⟩
    rw [Token.spelling_ofWord, String.toList_ofList]
    exact ⟨rfl, Token.maximal_ofWord _ head?_dropWhile⟩
  split
  · rintro ⟨⟩
    exact ⟨rfl, nofun, fun hword => absurd hword (by decide), nofun⟩
  next harrow =>
  split
  · next ht =>
    rintro ⟨⟩
    refine ⟨(Token.spelling_of_ofSymbol? ht).symm, Token.maximal_of_ofSymbol? ht ?_⟩
    exact fun hc hhead => harrow ⟨hc, hhead⟩
  · nofun

/-- An error names the character that is there, and no token begins with it. -/
theorem readItem_of_error {c d : Char} {cs : List Char} :
    (readItem c cs).content = .error d →
      d = c ∧ (readItem c cs).lexeme = [c] ∧ c.isAlphanum = false ∧ c ∉ symbols := by
  unfold readItem
  split
  · nofun
  next hdigit =>
  split
  · nofun
  next hletter =>
  split
  · nofun
  split
  · nofun
  · next hsymbol =>
    rintro ⟨⟩
    exact ⟨rfl, rfl, by simp [Char.isAlphanum, hdigit, hletter], ofSymbol?_eq_none_iff.mp hsymbol⟩

/-! ## Cutting a text up -/

/-- Part of a text: layout, and behind it a token or a character that belongs to none. -/
structure Segment where
  gap : List Char
  content : Except Char Token

namespace Segment

/-- The text behind the layout. -/
def lexeme (s : Segment) : List Char :=
  match s.content with
  | .ok t => t.spelling.toList
  | .error c => [c]

/-- The whole text. -/
def text (s : Segment) : List Char := s.gap ++ s.lexeme

/-- The items of segments, the first of which starts at a byte offset. -/
def items (offset : Nat) : List Segment → List (Except ParseError Located)
  | [] => []
  | s :: ss =>
    Cursor.locate (offset + byteLength s.gap) s.content :: items (offset + byteLength s.text) ss

/-- The segment is cut right where `rest` stands behind it: a token is one that can be read and does
not go on, and a character is one that begins no token. -/
structure Fits (s : Segment) (rest : List Char) : Prop where
  gap : s.gap.all isLayout = true
  token : ∀ t, s.content = .ok t → t.Genuine ∧ t.spelling ≠ "" ∧ t.Maximal rest
  char : ∀ c, s.content = .error c → isLayout c = false ∧ c.isAlphanum = false ∧ c ∉ symbols

end Segment

/-- A text is cut up into segments and a tail of layout. -/
def Cut : List Segment → List Char → Prop
  | [], tail => tail.all isLayout = true
  | s :: ss, tail => s.Fits (ss.flatMap Segment.text ++ tail) ∧ Cut ss tail

theorem byteLength_append (cs ds : List Char) :
    byteLength (cs ++ ds) = byteLength cs + byteLength ds := by
  induction cs with
  | nil => simp [byteLength]
  | cons c cs ih => rw [List.cons_append, byteLength, byteLength, ih, Nat.add_assoc]

namespace Cursor

/-- The layout in front of a place, and the text from the next item on. -/
theorem takeWhile_append_skipLayout (c : Cursor) :
    c.rest.takeWhile isLayout ++ c.skipLayout.rest = c.rest :=
  List.takeWhile_append_dropWhile

/-- At the end there is the end, as often as it is asked for. -/
theorem take_end (position count : Nat) :
    (⟨[], position⟩ : Cursor).take count = List.replicate count (.ok ⟨.eof, position⟩) := by
  induction count with
  | zero => rfl
  | succ count ih =>
    rw [List.replicate_succ, ← ih]
    rfl

theorem take_of_nil {c : Cursor} (h : c.skipLayout.rest = []) (count : Nat) :
    c.take count = List.replicate count (.ok ⟨.eof, c.skipLayout.position⟩) := by
  cases count with
  | zero => rfl
  | succ count =>
    have hnext : c.next = (.ok ⟨.eof, c.skipLayout.position⟩, c.skipLayout) := by simp [next, h]
    have hskip : c.skipLayout.take count = (⟨[], c.skipLayout.position⟩ : Cursor).take count := by
      rw [← h]
    rw [take, hnext, hskip, take_end, List.replicate_succ]

/-- What the lexer does from a place on: the text is cut up, and the calls give the items of the
segments and then the end. -/
structure Accounts (c : Cursor) (segments : List Segment) (tail : List Char) : Prop where
  cut : Cut segments tail
  text : c.rest = segments.flatMap Segment.text ++ tail
  items : c.items =
    Segment.items c.position segments ++ [.ok ⟨.eof, c.position + byteLength c.rest⟩]
  take : ∀ count, c.take (segments.length + count) = Segment.items c.position segments ++
    List.replicate count (.ok ⟨.eof, c.position + byteLength c.rest⟩)

/-- The segment at the front of a text that goes on behind its layout. -/
def segment (c : Cursor) (char : Char) (chars : List Char) : Segment :=
  ⟨c.rest.takeWhile isLayout, (readItem char chars).content⟩

theorem fits_segment {c : Cursor} {char : Char} {chars : List Char}
    (h : c.skipLayout.rest = char :: chars) :
    (c.segment char chars).lexeme = (readItem char chars).lexeme ∧
      (c.segment char chars).Fits (readItem char chars).rest := by
  have hgap : (c.rest.takeWhile isLayout).all isLayout = true := List.all_takeWhile
  cases hcontent : (readItem char chars).content with
  | ok t =>
    obtain ⟨hlexeme, hmaximal⟩ := readItem_of_ok hcontent
    have hne : t.spelling ≠ "" := by
      intro hempty
      rw [hempty] at hlexeme
      exact lexeme_ne_nil char chars hlexeme
    refine ⟨by simp [Segment.lexeme, segment, hcontent, hlexeme], hgap, ?_, ?_⟩
    · rintro _ ht
      obtain rfl : t = _ := Except.ok.inj (hcontent.symm.trans ht)
      exact ⟨genuine_of_readItem hcontent, hne, hmaximal⟩
    · rintro d hd
      cases hcontent.symm.trans hd
  | error d =>
    obtain ⟨rfl, hlexeme, hclass⟩ := readItem_of_error hcontent
    refine ⟨by simp [Segment.lexeme, segment, hcontent, hlexeme], hgap, ?_, ?_⟩
    · rintro t ht
      cases hcontent.symm.trans ht
    · rintro _ hd
      obtain rfl : d = _ := Except.error.inj (hcontent.symm.trans hd)
      exact ⟨isLayout_of_skipLayout h, hclass⟩

/-- The lexer cuts up the text from any place on. -/
theorem exists_accounts (c : Cursor) : ∃ segments tail, c.Accounts segments tail := by
  induction c using items.induct with
  | case1 c hnil =>
    have htext := c.takeWhile_append_skipLayout
    rw [hnil, List.append_nil] at htext
    have hend : c.skipLayout.position = c.position + byteLength c.rest := by
      rw [skipLayout, htext]
    refine ⟨[], c.rest, ?_, rfl, ?_, fun count => ?_⟩
    · rw [Cut, ← htext]
      exact List.all_takeWhile
    · rw [items_of_nil hnil, hend]
      rfl
    · rw [List.length_nil, Nat.zero_add, take_of_nil hnil, hend]
      rfl
  | case2 c hne ih =>
    obtain ⟨char, chars, hcons⟩ := List.exists_cons_of_ne_nil hne
    obtain ⟨segments, tail, hcut, htext, hitems, htake⟩ := ih
    obtain ⟨hlexeme, hfits⟩ := fits_segment hcons
    have hnext : c.next = (locate (c.position + byteLength (c.segment char chars).gap)
        (c.segment char chars).content,
        ⟨(readItem char chars).rest, c.position + byteLength (c.segment char chars).text⟩) := by
      simp only [next, hcons, Segment.text, hlexeme, byteLength_append, ← Nat.add_assoc]
      rfl
    have hrest : c.rest = (c.segment char chars).text ++ (readItem char chars).rest := by
      rw [Segment.text, hlexeme, List.append_assoc, lexeme_append_rest, ← hcons]
      exact c.takeWhile_append_skipLayout.symm
    have hend : c.position + byteLength c.rest =
        c.next.2.position + byteLength c.next.2.rest := by
      rw [hnext, hrest, byteLength_append, Nat.add_assoc]
    refine ⟨c.segment char chars :: segments, tail, ⟨?_, hcut⟩, ?_, ?_, fun count => ?_⟩
    · rwa [← htext, hnext]
    · rw [hrest, List.flatMap_cons, List.append_assoc, ← htext, hnext]
    · rw [items, if_neg hne, hitems, hend, hnext]
      rfl
    · rw [List.length_cons, Nat.add_right_comm, take, htake, hend, hnext]
      rfl

end Cursor

/-! ## Characters that belong to no token -/

/-- The character belongs to no token and is no layout, where `last` stands directly before it. -/
def Stray (last : Option Char) (c : Char) : Prop :=
  c.isAlphanum = false ∧ isLayout c = false ∧ c ∉ symbols ∧ ¬ (c = '>' ∧ last = some '-')

instance (last : Option Char) (c : Char) : Decidable (Stray last c) :=
  inferInstanceAs (Decidable (_ ∧ _ ∧ _ ∧ _))

/-- The errors about the characters of a text that belong to no token. The text starts at a byte
offset, and `last` stands before it. -/
def strays (last : Option Char) (offset : Nat) : List Char → List ParseError
  | [] => []
  | c :: cs =>
    (if Stray last c then [.unknownCharacter c offset] else []) ++
      strays (some c) (offset + c.utf8Size) cs

theorem mem_strays_iff {last : Option Char} {offset : Nat} {cs : List Char} {e : ParseError} :
    e ∈ strays last offset cs ↔ ∃ before c after, cs = before ++ c :: after ∧
      Stray (before.getLast?.or last) c ∧ e = .unknownCharacter c (offset + byteLength before) := by
  induction cs generalizing last offset with
  | nil => simp [strays]
  | cons d cs ih =>
    rw [strays, List.mem_append, ih]
    constructor
    · rintro (h | ⟨before, c, after, rfl, hstray, rfl⟩)
      · by_cases hd : Stray last d
        · refine ⟨[], d, cs, rfl, hd, ?_⟩
          simpa [hd, byteLength] using h
        · simp [hd] at h
      · refine ⟨d :: before, c, after, rfl, ?_, ?_⟩
        · rw [List.getLast?_cons]
          cases hlast : before.getLast? <;> simpa [hlast] using hstray
        · rw [byteLength, Nat.add_assoc]
    · rintro ⟨before, c, after, heq, hstray, rfl⟩
      cases before with
      | nil =>
        obtain ⟨rfl, rfl⟩ := List.cons.inj heq
        have hd : Stray last d := hstray
        exact .inl (by simp [hd, byteLength])
      | cons b before =>
        obtain ⟨rfl, rfl⟩ := List.cons.inj heq
        refine .inr ⟨before, c, after, rfl, ?_, ?_⟩
        · rw [List.getLast?_cons] at hstray
          cases hlast : before.getLast? <;> simpa [hlast] using hstray
        · rw [byteLength, Nat.add_assoc]

theorem strays_append (last : Option Char) (offset : Nat) (cs ds : List Char) :
    strays last offset (cs ++ ds) = strays last offset cs ++
      strays (cs.getLast?.or last) (offset + byteLength cs) ds := by
  induction cs generalizing last offset with
  | nil => rfl
  | cons c cs ih =>
    have hlast : (c :: cs).getLast?.or last = cs.getLast?.or (some c) := by
      rw [List.getLast?_cons]
      cases cs.getLast? <;> rfl
    rw [List.cons_append, strays, strays, ih, hlast, byteLength, Nat.add_assoc, List.append_assoc]

theorem strays_eq_nil {last : Option Char} {offset : Nat} {cs : List Char}
    (h : ∀ c ∈ cs, c.isAlphanum = true ∨ isLayout c = true ∨ c ∈ symbols) :
    strays last offset cs = [] := by
  refine List.eq_nil_iff_forall_not_mem.mpr fun e he => ?_
  obtain ⟨before, c, after, rfl, ⟨halphanum, hlayout, hsymbol, -⟩, -⟩ := mem_strays_iff.mp he
  rcases h c (by simp) with hc | hc | hc
  · simp [hc] at halphanum
  · simp [hc] at hlayout
  · exact hsymbol hc

theorem strays_eq_nil_of_all {last : Option Char} {offset : Nat} {cs : List Char}
    (h : cs.all (fun c => c.isAlphanum || symbols.contains c) = true) :
    strays last offset cs = [] := by
  refine strays_eq_nil fun c hc => ?_
  have hcs := List.all_eq_true.mp h c hc
  rw [Bool.or_eq_true, List.contains_iff_mem] at hcs
  exact hcs.imp_right .inr

namespace Token.Genuine

/-- There is no stray character in a token. -/
theorem strays_spelling {t : Token} (h : t.Genuine) (last : Option Char) (offset : Nat) :
    strays last offset t.spelling.toList = [] := by
  cases t with
  | number digits =>
    exact strays_eq_nil fun c hc => .inl (isAlphanum_of_isDigit (List.all_eq_true.mp h.2 c hc))
  | ident name => exact strays_eq_nil fun c hc => .inl (List.all_eq_true.mp h.2.1 c hc)
  | bool b => cases b <;> exact strays_eq_nil_of_all rfl
  | arrow => simp [spelling, strays, Stray, symbols]
  | _ => exact strays_eq_nil_of_all rfl

/-- The only token that ends in `-` is the minus. -/
theorem eq_minus_of_getLast? {t : Token} (h : t.Genuine)
    (hlast : t.spelling.toList.getLast? = some '-') : t = .minus := by
  have hmem := List.mem_of_getLast? hlast
  cases t with
  | minus => rfl
  | number digits => exact absurd (List.all_eq_true.mp h.2 _ hmem) (by decide)
  | ident name => exact absurd (List.all_eq_true.mp h.2.1 _ hmem) (by decide)
  | bool b => cases b <;> exact absurd hlast (by decide)
  | _ => exact absurd hlast (by decide)

end Token.Genuine

namespace Segment.Fits

variable {s : Segment} {rest : List Char}

theorem lexeme_ne_nil (h : s.Fits rest) : s.lexeme ≠ [] := by
  unfold lexeme
  split
  · next t ht => simpa using (h.token t ht).2.1
  · nofun

theorem getLast?_text (h : s.Fits rest) : s.text.getLast? = s.lexeme.getLast? := by
  rw [text, List.getLast?_append, Option.or_of_isSome (by simp [h.lexeme_ne_nil])]

/-- A minus is not followed by `>`, and nothing else ends like it. -/
theorem head?_ne (h : s.Fits rest) (hlast : s.text.getLast? = some '-') :
    rest.head? ≠ some '>' := by
  rw [h.getLast?_text] at hlast
  unfold lexeme at hlast
  split at hlast
  · next t ht =>
    obtain ⟨hgenuine, -, hmaximal⟩ := h.token t ht
    exact hmaximal.minus (hgenuine.eq_minus_of_getLast? hlast)
  · next c hc =>
    obtain rfl : c = '-' := by simpa using hlast
    exact absurd (by decide) (h.char _ hc).2.2

/-- What stands directly before the item is no minus that could go on in it. -/
theorem not_arrow (h : s.Fits rest) {last : Option Char}
    (hlast : last = some '-' → (s.text ++ rest).head? ≠ some '>') {c : Char}
    (hc : s.content = .error c) : ¬ (c = '>' ∧ s.gap.getLast?.or last = some '-') := by
  rintro ⟨rfl, hor⟩
  cases hgap : s.gap.getLast? with
  | none =>
    have hnil : s.gap = [] := List.getLast?_eq_none_iff.mp hgap
    rw [hgap] at hor
    exact hlast hor (by simp [text, lexeme, hnil, hc])
  | some d =>
    rw [hgap] at hor
    obtain rfl : d = '-' := by simpa using hor
    have hlayout := List.all_eq_true.mp h.gap _ (List.mem_of_getLast? hgap)
    exact absurd hlayout (by decide)

/-- The stray characters of a segment: none if there is a token, otherwise the one that it has. -/
theorem mem_strays_text (h : s.Fits rest) {last : Option Char}
    (hlast : last = some '-' → (s.text ++ rest).head? ≠ some '>') {offset : Nat} {e : ParseError} :
    e ∈ strays last offset s.text ↔
      .error e = Cursor.locate (offset + byteLength s.gap) s.content := by
  have hgap : strays last offset s.gap = [] :=
    strays_eq_nil fun c hc => .inr (.inl (List.all_eq_true.mp h.gap c hc))
  rw [text, strays_append, hgap, List.nil_append]
  cases hcontent : s.content with
  | ok t =>
    rw [lexeme, hcontent]
    simp [(h.token t hcontent).1.strays_spelling, Cursor.locate]
  | error c =>
    obtain ⟨hlayout, halphanum, hsymbol⟩ := h.char c hcontent
    have hstray : Stray (s.gap.getLast?.or last) c :=
      ⟨halphanum, hlayout, hsymbol, h.not_arrow hlast hcontent⟩
    rw [lexeme, hcontent]
    simp [strays, hstray, Cursor.locate]

end Segment.Fits

/-- The errors among the items of a text are about its stray characters. -/
theorem Cut.mem_items_iff {segments : List Segment} {tail : List Char} (h : Cut segments tail)
    {last : Option Char}
    (hlast : last = some '-' → (segments.flatMap Segment.text ++ tail).head? ≠ some '>')
    {offset : Nat} {e : ParseError} :
    .error e ∈ Segment.items offset segments ↔
      e ∈ strays last offset (segments.flatMap Segment.text ++ tail) := by
  induction segments generalizing last offset with
  | nil =>
    have htail : strays last offset tail = [] :=
      strays_eq_nil fun c hc => .inr (.inl (List.all_eq_true.mp h c hc))
    simp [Segment.items, htail]
  | cons s segments ih =>
    obtain ⟨hfits, hcut⟩ := h
    rw [List.flatMap_cons, List.append_assoc] at hlast ⊢
    have hlater := @ih hcut (s.text.getLast?.or last) (fun hminus => ?_) (offset + byteLength s.text)
    · rw [Segment.items, List.mem_cons, hlater, strays_append _ _ s.text, List.mem_append,
        hfits.mem_strays_text hlast]
    · rw [Option.or_of_isSome (by simp [Segment.text, hfits.lexeme_ne_nil])] at hminus
      exact hfits.head?_ne hminus

/-! ## Whole texts -/

theorem byteLength_eq_utf8ByteSize (cs : List Char) :
    byteLength cs = (String.ofList cs).utf8ByteSize := by
  induction cs with
  | nil => rfl
  | cons c cs ih => simp [byteLength, ih]

theorem byteLength_toList (source : String) : byteLength source.toList = source.utf8ByteSize := by
  rw [byteLength_eq_utf8ByteSize, String.ofList_toList]

/-- Results succeed together just if there is no error among them. -/
theorem exists_eq_map_ok_iff {ε α : Type} {results : List (Except ε α)} :
    (∃ as : List α, results = as.map .ok) ↔ ∀ e, .error e ∉ results := by
  constructor
  · rintro ⟨as, rfl⟩ e he
    obtain ⟨a, -, ha⟩ := List.mem_map.mp he
    cases ha
  · intro h
    induction results with
    | nil => exact ⟨[], rfl⟩
    | cons result results ih =>
      obtain ⟨as, rfl⟩ := ih fun e he => h e (List.mem_cons_of_mem _ he)
      cases result with
      | error e => exact absurd List.mem_cons_self (h e)
      | ok a => exact ⟨a :: as, rfl⟩

/-- Results fail together with the first error among them. -/
theorem mapM_id_eq_error_iff {ε α : Type} {results : List (Except ε α)} {e : ε} :
    results.mapM id = .error e ↔
      ∃ (as : List α) (later : List (Except ε α)), results = as.map .ok ++ .error e :: later := by
  induction results with
  | nil => simp [pure, Except.pure]
  | cons result results ih =>
    rw [List.mapM_cons]
    cases result with
    | error d =>
      constructor
      · rintro ⟨⟩
        exact ⟨[], results, rfl⟩
      · rintro ⟨as, later, heq⟩
        cases as with
        | nil =>
          obtain ⟨hd, -⟩ := List.cons.inj heq
          cases hd
          rfl
        | cons a as => cases (List.cons.inj heq).1
    | ok a =>
      have hstep : (id (.ok a) >>= fun b => results.mapM id >>= fun bs => pure (b :: bs) :
          Except ε (List α)) = .error e ↔ results.mapM id = .error e := by
        cases results.mapM id <;> simp [bind, Except.bind, pure, Except.pure]
      rw [hstep, ih]
      constructor
      · rintro ⟨as, later, rfl⟩
        exact ⟨a :: as, later, rfl⟩
      · rintro ⟨as, later, heq⟩
        cases as with
        | nil => cases (List.cons.inj heq).1
        | cons b as => exact ⟨as, later, (List.cons.inj heq).2⟩

/-- Calling for items until the end. The text is cut up into layout, tokens and stray characters,
and nothing else; every token is as long as it can be. The calls give these items in order, each
with its byte offset, and from then on the end. Errors are given just for the characters that are
neither letters, digits nor layout, no symbols, and no `>` behind `-`. Without such characters the
tokens of the text are the items, and with them there is the first error. -/
theorem Cursor.items_account_for_source (source : String) :
    ∃ segments tail, Cut segments tail ∧
      source.toList = segments.flatMap Segment.text ++ tail ∧
      (start source).items =
        Segment.items 0 segments ++ [.ok ⟨.eof, source.utf8ByteSize⟩] ∧
      (∀ count, (start source).take (segments.length + count) =
        Segment.items 0 segments ++ List.replicate count (.ok ⟨.eof, source.utf8ByteSize⟩)) ∧
      (start source).items.Pairwise (fun i j => positionOf i < positionOf j) ∧
      (∀ e, .error e ∈ (start source).items ↔ ∃ before c after,
        source.toList = before ++ c :: after ∧ Stray before.getLast? c ∧
          e = .unknownCharacter c (byteLength before)) ∧
      (∀ tokens, tokenize source = .ok tokens ↔ (start source).items = tokens.map .ok) ∧
      (∀ e, tokenize source = .error e ↔ ∃ (tokens : List Located) (later : List _),
        (start source).items = tokens.map .ok ++ .error e :: later) ∧
      ((∃ tokens, tokenize source = .ok tokens) ↔ ∀ before c after,
        source.toList = before ++ c :: after → ¬ Stray before.getLast? c) := by
  obtain ⟨segments, tail, haccounts⟩ := (start source).exists_accounts
  have hend : (start source).position + byteLength (start source).rest = source.utf8ByteSize := by
    rw [← byteLength_toList]
    exact Nat.zero_add _
  have htext : source.toList = segments.flatMap Segment.text ++ tail := haccounts.text
  have hitems : (start source).items =
      Segment.items 0 segments ++ [.ok ⟨.eof, source.utf8ByteSize⟩] := by
    rw [haccounts.items, hend]
    rfl
  have htake (count : Nat) : (start source).take (segments.length + count) =
      Segment.items 0 segments ++ List.replicate count (.ok ⟨.eof, source.utf8ByteSize⟩) := by
    rw [haccounts.take, hend]
    rfl
  have htokens (tokens : List Located) :
      tokenize source = .ok tokens ↔ (start source).items = tokens.map .ok := mapM_id_eq_ok_iff
  have herror (e : ParseError) : .error e ∈ (start source).items ↔ ∃ before c after,
      source.toList = before ++ c :: after ∧ Stray before.getLast? c ∧
        e = .unknownCharacter c (byteLength before) := by
    have hstrays := @Cut.mem_items_iff _ _ haccounts.cut none nofun 0 e
    rw [← htext, mem_strays_iff] at hstrays
    rw [hitems, List.mem_append, or_iff_left (by simp)]
    simpa using hstrays
  refine ⟨segments, tail, haccounts.cut, htext, hitems, htake, (positions_items _).2, herror,
    htokens, fun e => mapM_id_eq_error_iff, ?_⟩
  simp only [htokens, exists_eq_map_ok_iff, herror]
  constructor
  · intro h before c after heq hstray
    exact h _ ⟨before, c, after, heq, hstray, rfl⟩
  · rintro h e ⟨before, c, after, heq, hstray, -⟩
    exact h before c after heq hstray

end BigStep
