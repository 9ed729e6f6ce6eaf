import BigStep.Proofs.Text.Delimited
import BigStep.Proofs.Token.Munch

/-!
# Scanning by byte offset

The scanners of `Text.Delimited` once more, over a text in UTF-8. They go through the characters
with their byte offsets, keep a count of the open delimiters, and cut the text at offsets that they
have come by. Two things can go wrong in such a scan: the count would have to fall below zero, or a
cut would not fall between two characters.

* `Fault`: what can go wrong.
* `slice text start stop`: a text between two byte offsets. `slice_eq`: between the ends of a part
  it is that part.
* `spanByOffset`, `partsByOffset`: the scans for a matching delimiter and for the parts between
  commas.
* `spanFrom_eq`, `partsFrom_eq`: from any place on, a scan finds what the scanner of lists finds in
  the rest of the text, behind what was passed before.
* `spanByOffset_eq`, `partsByOffset_eq`: nothing goes wrong, and the scans agree with `span?` and
  `splitTopLevel?`.
-/

namespace BigStep.Text

/-! ## Cutting at byte offsets -/

/-- What can go wrong in a scan that counts delimiters and cuts at byte offsets. -/
inductive Fault
  /-- A delimiter closes where none is open. -/
  | noneOpen
  /-- A cut falls inside a character or behind the text, or two cuts are out of order. -/
  | badCut

/-- The text from byte `start` to byte `stop`. Characters have one to four bytes, and neither offset
may fall inside one. -/
def slice (text : String) (start stop : Nat) : Except Fault String :=
  if h : start ≤ stop ∧ String.Pos.Raw.IsValid text ⟨start⟩ ∧
      String.Pos.Raw.IsValid text ⟨stop⟩ then
    .ok (String.extract (s := text) ⟨⟨start⟩, h.2.1⟩ ⟨⟨stop⟩, h.2.2⟩)
  else .error .badCut

theorem slice_append (before part after : String) :
    slice (before ++ (part ++ after)) before.utf8ByteSize
      (before.utf8ByteSize + part.utf8ByteSize) = .ok part := by
  have hstart : String.Pos.Raw.IsValid (before ++ (part ++ after)) ⟨before.utf8ByteSize⟩ :=
    String.Pos.Raw.isValid_iff_exists_append.mpr ⟨before, part ++ after, rfl, rfl⟩
  have hstop : String.Pos.Raw.IsValid (before ++ (part ++ after))
      ⟨before.utf8ByteSize + part.utf8ByteSize⟩ := by
    rw [← String.utf8ByteSize_append, ← String.append_assoc]
    exact String.Pos.Raw.isValid_iff_exists_append.mpr ⟨before ++ part, after, rfl, rfl⟩
  rw [slice, dif_pos ⟨Nat.le_add_right _ _, hstart, hstop⟩]
  congr 1
  rw [← String.toByteArray_inj, String.toByteArray_extract, String.toByteArray_append,
    String.toByteArray_append]
  refine Eq.trans (ByteArray.extract_append_size_add (i := 0)) ?_
  exact ByteArray.extract_append_eq_left rfl

/-- Between the ends of a part of the text is that part. -/
theorem slice_eq {text : String} {before part after : List Char} {start stop : Nat}
    (htext : text.toList = before ++ (part ++ after)) (hstart : start = byteLength before)
    (hstop : stop = start + byteLength part) :
    slice text start stop = .ok (String.ofList part) := by
  have htext' : text = String.ofList before ++ (String.ofList part ++ String.ofList after) := by
    rw [← String.ofList_append, ← String.ofList_append, ← htext, String.ofList_toList]
  rw [hstop, hstart, byteLength_eq_utf8ByteSize, byteLength_eq_utf8ByteSize, htext']
  exact slice_append _ _ _

/-! ## The matching delimiter -/

/-- One delimiter fewer is open. -/
def close : Nat → Except Fault Nat
  | 0 => .error .noneOpen
  | depth + 1 => .ok depth

/-- The scan for the delimiter that closes the first character of the text, from a byte offset on.
Before it `depth` delimiters are open. -/
def spanFrom (o c : Char) (text : String) :
    (depth offset : Nat) → List Char → Except Fault (Option (String × String))
  | _, _, [] => .ok none
  | depth, offset, d :: ds =>
    if d = o then spanFrom o c text (depth + 1) (offset + d.utf8Size) ds
    else if d = c then do
      let outer ← close depth
      if outer = 0 then
        let inner ← slice text o.utf8Size offset
        let rest ← slice text (offset + c.utf8Size) text.utf8ByteSize
        return some (inner, rest)
      else spanFrom o c text outer (offset + d.utf8Size) ds
    else spanFrom o c text depth (offset + d.utf8Size) ds

/-- The text between the delimiter `o` at the front and the one that matches it, and the text
behind. -/
def spanByOffset (o c : Char) (text : String) : Except Fault (Option (String × String)) :=
  if text.toList.head? = some o then spanFrom o c text 0 0 text.toList else .ok none

/-- Behind the first delimiter one is open at least, so the count does not fall below zero. -/
theorem spanFrom_eq {o c : Char} {text : String} {front cs : List Char}
    (htext : text.toList = o :: front ++ cs) (depth : Nat) :
    spanFrom o c text (depth + 1) (byteLength (o :: front)) cs =
      .ok ((closeOff? o c depth cs).map fun (i, r) =>
        (String.ofList (front ++ i), String.ofList r)) := by
  induction cs generalizing depth front with
  | nil => rfl
  | cons d ds ih =>
    have hoffset : byteLength (o :: front) + d.utf8Size = byteLength (o :: (front ++ [d])) := by
      rw [← List.cons_append, byteLength_append]
      rfl
    have hnext : text.toList = o :: (front ++ [d]) ++ ds := by simpa using htext
    -- what is found behind a character that is passed has it in front
    have hpass (depth : Nat) :
        spanFrom o c text (depth + 1) (byteLength (o :: front) + d.utf8Size) ds =
          .ok (((closeOff? o c depth ds).map fun (i, r) => (d :: i, r)).map fun (i, r) =>
            (String.ofList (front ++ i), String.ofList r)) := by
      rw [hoffset, ih hnext, Option.map_map]
      simp [Function.comp_def]
    rw [spanFrom]
    by_cases ho : d = o
    · rw [if_pos ho, hpass, ho, closeOff?_opening]
    by_cases hc : d = c
    · subst hc
      rw [if_neg ho, if_pos rfl]
      cases depth with
      | zero =>
        have hinner : slice text o.utf8Size (byteLength (o :: front)) = .ok (String.ofList front) :=
          slice_eq (show text.toList = [o] ++ (front ++ d :: ds) from htext) rfl rfl
        have hrest : slice text (byteLength (o :: front) + d.utf8Size) text.utf8ByteSize =
            .ok (String.ofList ds) := by
          have hend : text.toList = o :: (front ++ [d]) ++ (ds ++ []) := by simpa using hnext
          refine slice_eq hend hoffset ?_
          rw [← byteLength_toList, hnext, byteLength_append, hoffset]
        rw [closeOff?_closing (Ne.symm ho)]
        simp only [close, bind, Except.bind, if_true, hinner, hrest, Option.map_some,
          List.append_nil]
        rfl
      | succ outer =>
        rw [closeOff?_closing_succ (Ne.symm ho), ← hpass]
        rfl
    · rw [if_neg ho, if_neg hc, hpass, closeOff?_cons_of_ne ho hc]

/-- Nothing goes wrong, and the span is that of the characters. -/
theorem spanByOffset_eq (o c : Char) (text : String) :
    spanByOffset o c text = .ok ((span? o c text.toList).map fun (i, r) =>
      (String.ofList i, String.ofList r)) := by
  rw [spanByOffset]
  cases htext : text.toList with
  | nil => rfl
  | cons d ds =>
    by_cases hd : d = o
    · subst hd
      have hfrom := @spanFrom_eq d c text [] ds htext 0
      rw [List.head?_cons, if_pos rfl, span?, if_pos rfl, spanFrom, if_pos rfl]
      simpa [byteLength] using hfrom
    · rw [if_neg (by simpa using hd), span?, if_neg hd]
      rfl

/-! ## The parts between commas -/

/-- The scan for the commas outside all brackets, from a byte offset on. Before it `depth` brackets
are open, and the part in which it stands begins at byte `start`. -/
def partsFrom (text : String) :
    (depth start offset : Nat) → List Char → Except Fault (Option (List String))
  | depth, start, _, [] =>
    if depth = 0 then do
      let last ← slice text start text.utf8ByteSize
      return some [last]
    else .ok none
  | depth, start, offset, c :: cs =>
    if isOpening c then partsFrom text (depth + 1) start (offset + c.utf8Size) cs
    else if isClosing c then
      if depth = 0 then .ok none else partsFrom text (depth - 1) start (offset + c.utf8Size) cs
    else if depth = 0 ∧ c = ',' then do
      let part ← slice text start offset
      let parts ← partsFrom text depth (offset + 1) (offset + c.utf8Size) cs
      return parts.map (part :: ·)
    else partsFrom text depth start (offset + c.utf8Size) cs

/-- The parts of the text between the commas outside all brackets. -/
def partsByOffset (text : String) : Except Fault (Option (List String)) :=
  partsFrom text 0 0 0 text.toList

theorem modifyHead_self {α : Type} (xs : List α) : (xs.modifyHead fun x => x) = xs :=
  congrFun List.modifyHead_id xs

/-- The text `before` ends with the last comma, and `front` is what the part has had so far. -/
theorem partsFrom_eq {text : String} {before front cs : List Char}
    (htext : text.toList = before ++ (front ++ cs)) (depth : Nat) :
    partsFrom text depth (byteLength before) (byteLength (before ++ front)) cs =
      .ok ((splitAtDepth? depth cs).map fun parts =>
        (parts.modifyHead (front ++ ·)).map String.ofList) := by
  induction cs generalizing depth before front with
  | nil =>
    cases depth with
    | succ depth => rfl
    | zero =>
      have hlast : slice text (byteLength before) text.utf8ByteSize =
          .ok (String.ofList front) := by
        refine slice_eq htext rfl ?_
        rw [← byteLength_toList, htext, List.append_nil, byteLength_append]
      rw [partsFrom, if_pos rfl, hlast]
      simp [splitAtDepth?, bind, Except.bind, pure, Except.pure]
  | cons c cs ih =>
    have hoffset : byteLength (before ++ front) + c.utf8Size =
        byteLength (before ++ (front ++ [c])) := by
      rw [← List.append_assoc, byteLength_append (before ++ front)]
      rfl
    have hnext : text.toList = before ++ (front ++ [c] ++ cs) := by simpa using htext
    -- a character that ends no part stands in front of what the part has behind it
    have hpass (depth : Nat) :
        partsFrom text depth (byteLength before) (byteLength (before ++ front) + c.utf8Size) cs =
          .ok (((splitAtDepth? depth cs).map (·.modifyHead (c :: ·))).map fun parts =>
            (parts.modifyHead (front ++ ·)).map String.ofList) := by
      rw [hoffset, ih hnext, Option.map_map]
      simp [Function.comp_def, List.modifyHead_modifyHead]
    rw [partsFrom]
    by_cases ho : isOpening c = true
    · rw [if_pos ho, hpass, splitAtDepth?_opening ho]
    rw [if_neg ho]
    by_cases hc : isClosing c = true
    · rw [if_pos hc]
      cases depth with
      | zero => simp [splitAtDepth?, ho, hc]
      | succ outer =>
        rw [if_neg (Nat.succ_ne_zero outer), Nat.add_sub_cancel, hpass, splitAtDepth?_closing hc]
    rw [if_neg hc]
    by_cases hcomma : depth = 0 ∧ c = ','
    · obtain ⟨rfl, rfl⟩ := hcomma
      have hpart : slice text (byteLength before) (byteLength (before ++ front)) =
          .ok (String.ofList front) := slice_eq htext rfl (byteLength_append _ _)
      -- a comma has one byte, so the next part begins right behind it
      have hlater : partsFrom text 0 (byteLength (before ++ front) + 1)
          (byteLength (before ++ front) + ','.utf8Size) cs =
            .ok ((splitAtDepth? 0 cs).map (·.map String.ofList)) := by
        have hbehind := @ih (before ++ (front ++ [','])) [] (by simpa using htext) 0
        rw [List.append_nil, ← hoffset] at hbehind
        simp only [List.nil_append, modifyHead_self] at hbehind
        exact hbehind
      rw [if_pos ⟨rfl, rfl⟩, hpart, splitAtDepth?_comma]
      simp only [bind, Except.bind, hlater]
      simp [pure, Except.pure, Function.comp_def]
    · rw [if_neg hcomma, hpass, splitAtDepth?_other (by simpa using ho) (by simpa using hc) hcomma]

/-- Nothing goes wrong, and the parts are those of the characters. -/
theorem partsByOffset_eq (text : String) :
    partsByOffset text = .ok ((splitTopLevel? text.toList).map (·.map String.ofList)) := by
  have hfrom := @partsFrom_eq text [] [] text.toList rfl 0
  simp only [List.nil_append, modifyHead_self] at hfrom
  exact hfrom

end BigStep.Text
