import BigStep.Text.Blank
import BigStep.Text.Delimited

/-!
# Scanning delimited text

What the scanners do on text whose brackets match.

* `Balanced commas cs`: brackets match, and commas outside them stand only if `commas` is set.
* `closeOff?_append`, `splitAtDepth?_append`: a scanner runs over balanced text as over a single
  character that it does not look for.
* `splitAtDepth?_append_comma`: a comma outside all brackets ends a part.
* `eq_of_span?`, `eq_of_splitAtDepth?`, `eq_of_cut?`: what a scanner cuts apart makes up the text
  again, whether it is balanced or not.
* `Opens`, `Ends`: a text that has a first, or a last, character, and that one is not blank.
* `trim_append`: blanks around a text that opens and ends so are all that is trimmed.
* `Padded core text`: the text is the core with blanks around it, as every text is what trimming
  leaves of it with blanks around that (`padded_trim`).
* `Tidy commas cs`: all of these at once, which is what canonical texts are.
-/

namespace BigStep.Text

/-- The two pairs of brackets. -/
def IsPair (o c : Char) : Prop := (o = '(' ∧ c = ')') ∨ (o = '[' ∧ c = ']')

/-- The character is no bracket, and not the bar of a turnstile. -/
def isPlain (c : Char) : Bool := !isOpening c && !isClosing c && c != '|'

/-- Brackets match, and there is no bar. Outside the brackets there are commas only if `commas` is
set. -/
inductive Balanced : (commas : Bool) → List Char → Prop
  | nil {commas : Bool} : Balanced commas []
  | plain {commas : Bool} {c : Char} {cs : List Char} (hc : isPlain c = true)
      (hcomma : c = ',' → commas = true) (h : Balanced commas cs) : Balanced commas (c :: cs)
  | group {commas : Bool} {o c : Char} {inner cs : List Char} (hp : IsPair o c)
      (hinner : Balanced true inner) (h : Balanced commas cs) :
      Balanced commas (o :: inner ++ c :: cs)

namespace Balanced

theorem append {commas : Bool} {cs ds : List Char} (h : Balanced commas cs)
    (hd : Balanced commas ds) : Balanced commas (cs ++ ds) := by
  induction h with
  | nil => exact hd
  | plain hc hcomma _ ih => exact .plain hc hcomma (ih hd)
  | group hp hinner _ _ ih =>
    rw [List.append_assoc, List.cons_append]
    exact .group hp hinner (ih hd)

theorem commas {commas : Bool} {cs : List Char} (h : Balanced commas cs) : Balanced true cs := by
  induction h with
  | nil => exact .nil
  | plain hc _ _ ih => exact .plain hc (fun _ => rfl) ih
  | group hp hinner _ _ ih => exact .group hp hinner ih

theorem of_all {commas : Bool} {cs : List Char}
    (h : cs.all (fun c => isPlain c && c != ',') = true) : Balanced commas cs := by
  induction cs with
  | nil => exact .nil
  | cons c cs ih =>
    simp only [List.all_cons, Bool.and_eq_true, bne_iff_ne] at h
    exact .plain h.1.1 (fun hc => absurd hc h.1.2) (ih (by simpa using h.2))

/-- Balanced text in brackets is balanced. -/
theorem enclose {commas b : Bool} {o c : Char} {cs : List Char} (hp : IsPair o c)
    (h : Balanced b cs) : Balanced commas (o :: cs ++ [c]) := .group hp h.commas .nil

theorem not_mem_bar {commas : Bool} {cs : List Char} (h : Balanced commas cs) : '|' ∉ cs := by
  induction h with
  | nil => exact List.not_mem_nil
  | plain hc _ _ ih =>
    rw [List.mem_cons]
    rintro (rfl | hmem)
    · exact absurd hc (by decide)
    · exact ih hmem
  | group hp _ _ ihinner ih =>
    simp only [List.mem_append, List.mem_cons]
    rintro ((rfl | hmem) | rfl | hmem)
    · rcases hp with ⟨h, -⟩ | ⟨h, -⟩ <;> cases h
    · exact ihinner hmem
    · rcases hp with ⟨-, h⟩ | ⟨-, h⟩ <;> cases h
    · exact ih hmem

end Balanced

/-! ## Finding the matching bracket -/

theorem closeOff?_cons_of_ne {o c d : Char} (ho : d ≠ o) (hc : d ≠ c) (depth : Nat)
    (cs : List Char) :
    closeOff? o c depth (d :: cs) = (closeOff? o c depth cs).map fun (i, r) => (d :: i, r) := by
  cases depth <;> rw [closeOff?, if_neg ho, if_neg hc]

theorem closeOff?_opening (o c : Char) (depth : Nat) (cs : List Char) :
    closeOff? o c depth (o :: cs) =
      (closeOff? o c (depth + 1) cs).map fun (i, r) => (o :: i, r) := by
  cases depth <;> rw [closeOff?, if_pos rfl]

theorem closeOff?_closing {o c : Char} (h : o ≠ c) (cs : List Char) :
    closeOff? o c 0 (c :: cs) = some ([], cs) := by
  rw [closeOff?, if_neg h.symm, if_pos rfl]

theorem closeOff?_closing_succ {o c : Char} (h : o ≠ c) (depth : Nat) (cs : List Char) :
    closeOff? o c (depth + 1) (c :: cs) =
      (closeOff? o c depth cs).map fun (i, r) => (c :: i, r) := by
  rw [closeOff?, if_neg h.symm, if_pos rfl]

theorem IsPair.ne {o c : Char} (h : IsPair o c) : o ≠ c := by
  rcases h with ⟨rfl, rfl⟩ | ⟨rfl, rfl⟩ <;> decide

/-- Two pairs of brackets are the same or have no character in common. -/
theorem IsPair.eq_or_disjoint {o c o' c' : Char} (h : IsPair o c) (h' : IsPair o' c') :
    (o' = o ∧ c' = c) ∨ (o' ≠ o ∧ o' ≠ c ∧ c' ≠ o ∧ c' ≠ c) := by
  rcases h with ⟨rfl, rfl⟩ | ⟨rfl, rfl⟩ <;> rcases h' with ⟨rfl, rfl⟩ | ⟨rfl, rfl⟩ <;> decide

theorem IsPair.ne_of_isPlain {o c d : Char} (h : IsPair o c) (hd : isPlain d = true) :
    d ≠ o ∧ d ≠ c := by
  constructor <;> rintro rfl <;> rcases h with ⟨rfl, rfl⟩ | ⟨rfl, rfl⟩ <;> revert hd <;> decide

/-- No bracket of balanced text closes one that was open before it. -/
theorem closeOff?_append {o c : Char} (hp : IsPair o c) {commas : Bool} {cs : List Char}
    (h : Balanced commas cs) (depth : Nat) (rest : List Char) :
    closeOff? o c depth (cs ++ rest) =
      (closeOff? o c depth rest).map fun (i, r) => (cs ++ i, r) := by
  induction h generalizing depth rest with
  | nil => simp
  | plain hd _ _ ih =>
    obtain ⟨ho, hc⟩ := hp.ne_of_isPlain hd
    rw [List.cons_append, closeOff?_cons_of_ne ho hc, ih, Option.map_map]
    rfl
  | @group _ o' c' inner cs hp' _ _ ihinner ih =>
    rw [List.append_assoc, List.cons_append, List.cons_append]
    rcases hp.eq_or_disjoint hp' with ⟨rfl, rfl⟩ | ⟨hoo, hoc, hco, hcc⟩
    · rw [closeOff?_opening, ihinner, closeOff?_closing_succ hp.ne, ih]
      simp only [Option.map_map, Function.comp_def, List.cons_append, List.append_assoc]
    · rw [closeOff?_cons_of_ne hoo hoc, ihinner, closeOff?_cons_of_ne hco hcc, ih]
      simp only [Option.map_map, Function.comp_def, List.cons_append, List.append_assoc]

/-- The span of balanced text in brackets is that text. -/
theorem span?_enclose {o c : Char} (hp : IsPair o c) {commas : Bool} {cs : List Char}
    (h : Balanced commas cs) (rest : List Char) :
    span? o c (o :: cs ++ c :: rest) = some (cs, rest) := by
  rw [List.cons_append, span?, if_pos rfl, closeOff?_append hp h, closeOff?_closing hp.ne]
  simp

/-- What a scanner cuts apart at the matching bracket makes up the text again. -/
theorem eq_of_closeOff? {o c : Char} {depth : Nat} {cs inner rest : List Char}
    (h : closeOff? o c depth cs = some (inner, rest)) : cs = inner ++ c :: rest := by
  fun_induction closeOff? o c depth cs generalizing inner rest with
  | case1 => cases h
  | case2 depth cs ih | case4 cs _ depth ih | case5 depth d cs _ _ ih =>
    obtain ⟨⟨i, r⟩, hir, hparts⟩ := Option.map_eq_some_iff.mp h
    cases hparts
    rw [ih hir]
    rfl
  | case3 cs =>
    cases h
    rfl

theorem eq_of_span? {o c : Char} {cs inner rest : List Char}
    (h : span? o c cs = some (inner, rest)) : cs = o :: inner ++ c :: rest := by
  cases cs with
  | nil => cases h
  | cons d cs =>
    by_cases hd : d = o
    · rw [span?, if_pos hd] at h
      rw [hd, eq_of_closeOff? h]
      rfl
    · rw [span?, if_neg hd] at h
      cases h

/-! ## Splitting at commas -/

theorem splitAtDepth?_opening {c : Char} (h : isOpening c = true) (depth : Nat) (cs : List Char) :
    splitAtDepth? depth (c :: cs) =
      (splitAtDepth? (depth + 1) cs).map (·.modifyHead (c :: ·)) := by
  cases depth <;> simp [splitAtDepth?, h]

theorem splitAtDepth?_closing {c : Char} (h : isClosing c = true) (depth : Nat) (cs : List Char) :
    splitAtDepth? (depth + 1) (c :: cs) =
      (splitAtDepth? depth cs).map (·.modifyHead (c :: ·)) := by
  have ho : isOpening c = false := by
    simp only [isClosing, Bool.or_eq_true, beq_iff_eq] at h
    rcases h with rfl | rfl <;> rfl
  simp [splitAtDepth?, h, ho]

theorem splitAtDepth?_other {c : Char} (ho : isOpening c = false) (hc : isClosing c = false)
    {depth : Nat} (hcomma : ¬(depth = 0 ∧ c = ',')) (cs : List Char) :
    splitAtDepth? depth (c :: cs) = (splitAtDepth? depth cs).map (·.modifyHead (c :: ·)) := by
  cases depth <;> simp_all [splitAtDepth?]

theorem splitAtDepth?_comma (cs : List Char) :
    splitAtDepth? 0 (',' :: cs) = (splitAtDepth? 0 cs).map ([] :: ·) := rfl

theorem IsPair.isOpening {o c : Char} (h : IsPair o c) : isOpening o = true := by
  rcases h with ⟨rfl, -⟩ | ⟨rfl, -⟩ <;> rfl

theorem IsPair.isClosing {o c : Char} (h : IsPair o c) : isClosing c = true := by
  rcases h with ⟨-, rfl⟩ | ⟨-, rfl⟩ <;> rfl

/-- Balanced text becomes the front of the first part. -/
theorem splitAtDepth?_append {commas : Bool} {cs : List Char} (h : Balanced commas cs)
    {depth : Nat} (hdepth : commas = true → 0 < depth) (rest : List Char) :
    splitAtDepth? depth (cs ++ rest) =
      (splitAtDepth? depth rest).map (·.modifyHead (cs ++ ·)) := by
  induction h generalizing depth rest with
  | nil =>
    show splitAtDepth? depth rest = (splitAtDepth? depth rest).map (·.modifyHead id)
    simp
  | plain hc hcomma _ ih =>
    simp only [isPlain, Bool.and_eq_true, Bool.not_eq_true'] at hc
    have hcomma' : ¬(depth = 0 ∧ _ = ',') := fun h => absurd (hdepth (hcomma h.2)) (by omega)
    rw [List.cons_append, splitAtDepth?_other hc.1.1 hc.1.2 hcomma', ih hdepth]
    simp only [Option.map_map, Function.comp_def, List.modifyHead_modifyHead, List.cons_append]
  | group hp _ _ ihinner ih =>
    rw [List.append_assoc, List.cons_append, List.cons_append,
      splitAtDepth?_opening hp.isOpening, ihinner fun _ => Nat.succ_pos depth,
      splitAtDepth?_closing hp.isClosing, ih hdepth]
    simp only [Option.map_map, Function.comp_def, List.modifyHead_modifyHead, List.cons_append,
      List.append_assoc]

/-- Text without commas outside its brackets is a single part. -/
theorem splitTopLevel?_of_balanced {cs : List Char} (h : Balanced false cs) :
    splitTopLevel? cs = some [cs] := by
  have happend : splitAtDepth? 0 (cs ++ []) = _ := splitAtDepth?_append h (by simp) []
  simpa [splitTopLevel?, splitAtDepth?] using happend

theorem splitAtDepth?_ne_nil {depth : Nat} {cs : List Char} {parts : List (List Char)}
    (h : splitAtDepth? depth cs = some parts) : parts ≠ [] := by
  fun_induction splitAtDepth? depth cs generalizing parts with
  | case1 =>
    cases h
    simp
  | case2 | case4 => cases h
  | case3 _ _ _ _ ih | case5 _ _ _ _ _ ih | case7 _ _ _ _ _ _ ih =>
    obtain ⟨ps, hps, rfl⟩ := Option.map_eq_some_iff.mp h
    simpa using ih hps
  | case6 =>
    obtain ⟨ps, hps, rfl⟩ := Option.map_eq_some_iff.mp h
    simp

theorem map_modifyHead_append {ps : List (List Char)} (h : ps ≠ []) (f : List Char → List Char)
    (o : Option (List (List Char))) :
    (o.map (ps ++ ·)).map (·.modifyHead f) = o.map (ps.modifyHead f ++ ·) := by
  obtain ⟨p, ps, rfl⟩ := List.exists_cons_of_ne_nil h
  simp [Function.comp_def]

/-- A comma outside all brackets ends a part. -/
theorem splitAtDepth?_append_comma {depth : Nat} {cs : List Char} {parts : List (List Char)}
    (h : splitAtDepth? depth cs = some parts) (rest : List Char) :
    splitAtDepth? depth (cs ++ ',' :: rest) = (splitAtDepth? 0 rest).map (parts ++ ·) := by
  fun_induction splitAtDepth? depth cs generalizing parts with
  | case1 =>
    cases h
    exact splitAtDepth?_comma rest
  | case2 | case4 => cases h
  | case3 depth c cs ho ih =>
    obtain ⟨ps, hps, rfl⟩ := Option.map_eq_some_iff.mp h
    rw [List.cons_append, splitAtDepth?_opening ho, ih hps,
      map_modifyHead_append (splitAtDepth?_ne_nil hps)]
  | case5 c cs ho hc depth ih =>
    obtain ⟨ps, hps, rfl⟩ := Option.map_eq_some_iff.mp h
    rw [List.cons_append, splitAtDepth?_closing hc, ih hps,
      map_modifyHead_append (splitAtDepth?_ne_nil hps)]
  | case6 depth c cs ho hc hcomma ih =>
    obtain ⟨rfl, rfl⟩ := hcomma
    obtain ⟨ps, hps, rfl⟩ := Option.map_eq_some_iff.mp h
    rw [List.cons_append, splitAtDepth?_comma, ih hps, Option.map_map]
    rfl
  | case7 depth c cs ho hc hcomma ih =>
    obtain ⟨ps, hps, rfl⟩ := Option.map_eq_some_iff.mp h
    rw [Bool.not_eq_true] at ho hc
    rw [List.cons_append, splitAtDepth?_other ho hc hcomma, ih hps,
      map_modifyHead_append (splitAtDepth?_ne_nil hps)]

/-- The parts with commas between them make up the text again. -/
theorem eq_of_splitAtDepth? {depth : Nat} {cs part : List Char} {parts : List (List Char)}
    (h : splitAtDepth? depth cs = some (part :: parts)) :
    cs = part ++ parts.flatMap (',' :: ·) := by
  fun_induction splitAtDepth? depth cs generalizing part parts with
  | case1 =>
    cases h
    rfl
  | case2 | case4 => cases h
  | case3 _ _ _ _ ih | case5 _ _ _ _ _ ih | case7 _ _ _ _ _ _ ih =>
    obtain ⟨ps, hps, hparts⟩ := Option.map_eq_some_iff.mp h
    obtain ⟨p, ps, rfl⟩ := List.exists_cons_of_ne_nil (splitAtDepth?_ne_nil hps)
    cases hparts
    rw [ih hps]
    rfl
  | case6 depth c cs ho hc hcomma ih =>
    obtain ⟨rfl, rfl⟩ := hcomma
    obtain ⟨ps, hps, hparts⟩ := Option.map_eq_some_iff.mp h
    obtain ⟨p, ps, rfl⟩ := List.exists_cons_of_ne_nil (splitAtDepth?_ne_nil hps)
    cases hparts
    rw [ih hps]
    rfl

theorem cut?_append {c : Char} {cs : List Char} (h : c ∉ cs) (rest : List Char) :
    cut? c (cs ++ c :: rest) = some (cs, rest) := by
  have hcs : ∀ d ∈ cs, (d != c) = true := fun d hd => bne_iff_ne.mpr (ne_of_mem_of_not_mem hd h)
  rw [cut?, List.dropWhile_append_of_pos hcs, List.takeWhile_append_of_pos hcs]
  simp

theorem eq_of_cut? {c : Char} {cs before after : List Char}
    (h : cut? c cs = some (before, after)) : cs = before ++ c :: after := by
  unfold cut? at h
  split at h
  · cases h
  · next d after hdrop =>
    cases h
    have hd := List.head?_dropWhile_not (· != c) cs
    rw [hdrop] at hd
    obtain rfl : d = c := by simpa using hd
    rw [← hdrop]
    exact List.takeWhile_append_dropWhile.symm

/-! ## Trimming -/

/-- There is a first character, and it is not blank. -/
def Opens (cs : List Char) : Prop := cs.head?.any (fun c => !isBlank c) = true

/-- There is a last character, and it is not blank. -/
def Ends (cs : List Char) : Prop := cs.getLast?.any (fun c => !isBlank c) = true

theorem opens_cons {c : Char} (h : isBlank c = false) (cs : List Char) : Opens (c :: cs) := by
  simp [Opens, h]

theorem ends_concat {c : Char} (h : isBlank c = false) (cs : List Char) : Ends (cs ++ [c]) := by
  simp [Ends, h]

theorem Opens.append {cs : List Char} (h : Opens cs) (rest : List Char) : Opens (cs ++ rest) := by
  cases cs with
  | nil => cases h
  | cons c cs => exact h

theorem Ends.append {cs : List Char} (h : Ends cs) (front : List Char) : Ends (front ++ cs) := by
  cases hl : cs.getLast? with
  | none => simp [Ends, hl] at h
  | some c => simpa [Ends, hl] using h

theorem Opens.ne_nil {cs : List Char} (h : Opens cs) : cs ≠ [] := by
  rintro rfl
  cases h

theorem Opens.head?_ne {cs : List Char} (h : Opens cs) : cs.head? ≠ some ' ' := by
  intro hspace
  rw [Opens, hspace] at h
  cases h

theorem opens_of_all {cs : List Char} (hne : cs ≠ []) (h : ∀ c ∈ cs, isBlank c = false) :
    Opens cs := by
  obtain ⟨c, cs, rfl⟩ := List.exists_cons_of_ne_nil hne
  exact opens_cons (h c (by simp)) cs

theorem ends_of_all {cs : List Char} (hne : cs ≠ []) (h : ∀ c ∈ cs, isBlank c = false) :
    Ends cs := by
  rw [← List.dropLast_concat_getLast hne]
  exact ends_concat (h _ (List.getLast_mem hne)) _

theorem trimStart_append {front cs : List Char} (hf : front.all isBlank = true) (h : Opens cs) :
    trimStart (front ++ cs) = cs := by
  rw [trimStart, List.dropWhile_append_of_pos (List.all_eq_true.mp hf)]
  cases cs with
  | nil => rfl
  | cons c cs =>
    have hc : isBlank c = false := by simpa [Opens] using h
    rw [List.dropWhile_cons_of_neg (by simp [hc])]

theorem trimEnd_append {cs back : List Char} (hb : back.all isBlank = true) (h : Ends cs) :
    trimEnd (cs ++ back) = cs := by
  have hback : ∀ c ∈ back.reverse, isBlank c = true := by simpa using hb
  rw [trimEnd, List.reverse_append, List.dropWhile_append_of_pos hback]
  cases hcs : cs.reverse with
  | nil => simpa using hcs.symm
  | cons c rest =>
    have hc : isBlank c = false := by
      rw [← List.reverse_reverse cs, hcs] at h
      simpa [Ends] using h
    rw [List.dropWhile_cons_of_neg (by simp [hc]), ← hcs, List.reverse_reverse]

/-- Blanks at both ends are dropped, and nothing else. -/
theorem trim_append {front cs back : List Char} (hf : front.all isBlank = true)
    (hb : back.all isBlank = true) (ho : Opens cs) (he : Ends cs) :
    trim (front ++ (cs ++ back)) = cs := by
  rw [trim, trimStart_append hf (ho.append back), trimEnd_append hb he]

/-- The text is `core` with blanks around it. -/
def Padded (core text : List Char) : Prop :=
  ∃ front back, front.all isBlank = true ∧ back.all isBlank = true ∧
    text = front ++ (core ++ back)

/-- Only blanks are trimmed off. -/
theorem padded_trim (cs : List Char) : Padded (trim cs) cs := by
  refine ⟨cs.takeWhile isBlank, ((trimStart cs).reverse.takeWhile isBlank).reverse,
    List.all_takeWhile, ?_, ?_⟩
  · rw [List.all_reverse]
    exact List.all_takeWhile
  · rw [trim, trimEnd, ← List.reverse_append, List.takeWhile_append_dropWhile,
      List.reverse_reverse, takeWhile_append_trimStart]

theorem Padded.refl (cs : List Char) : Padded cs cs := ⟨[], [], rfl, rfl, by simp⟩

theorem Padded.trans {core cs ds : List Char} (h : Padded core cs) (h' : Padded cs ds) :
    Padded core ds := by
  obtain ⟨front, back, hfront, hback, rfl⟩ := h
  obtain ⟨front', back', hfront', hback', rfl⟩ := h'
  refine ⟨front' ++ front, back ++ back', ?_, ?_, by simp⟩
  · rw [List.all_append, hfront', hfront]
    rfl
  · rw [List.all_append, hback, hback']
    rfl

/-- Blanks may be added in front, or behind. -/
theorem padded_behind {front : List Char} (h : front.all isBlank = true) (cs : List Char) :
    Padded cs (front ++ cs) := ⟨front, [], h, rfl, by simp⟩

theorem padded_before {back : List Char} (h : back.all isBlank = true) (cs : List Char) :
    Padded cs (cs ++ back) := ⟨[], back, rfl, h, by simp⟩

theorem trim_eq_nil_iff {cs : List Char} : trim cs = [] ↔ cs.all isBlank = true := by
  constructor
  · intro h
    obtain ⟨front, back, hfront, hback, hcs⟩ := h ▸ padded_trim cs
    rw [hcs]
    simp [hfront, hback]
  · intro h
    rw [trim, trimStart, ← List.append_nil cs,
      List.dropWhile_append_of_pos (List.all_eq_true.mp h)]
    rfl

theorem isPlain_of_isBlank {c : Char} (h : isBlank c = true) : isPlain c = true ∧ c ≠ ',' := by
  have hink : ['(', '[', ')', ']', '|', ','].all (fun d => !isBlank d) = true := rfl
  have hne : ∀ d ∈ ['(', '[', ')', ']', '|', ','], c ≠ d := by
    rintro d hd rfl
    have hc := List.all_eq_true.mp hink c hd
    rw [h] at hc
    cases hc
  simpa [isPlain, isOpening, isClosing, and_assoc] using hne

theorem Balanced.of_isBlank {commas : Bool} {cs : List Char} (h : cs.all isBlank = true) :
    Balanced commas cs := by
  refine .of_all (List.all_eq_true.mpr fun c hc => ?_)
  simpa using isPlain_of_isBlank (List.all_eq_true.mp h c hc)

theorem Padded.balanced {commas : Bool} {core cs : List Char} (h : Padded core cs)
    (hcore : Balanced commas core) : Balanced commas cs := by
  obtain ⟨front, back, hfront, hback, rfl⟩ := h
  exact (Balanced.of_isBlank hfront).append (hcore.append (.of_isBlank hback))

theorem Padded.trim_eq {core cs : List Char} (h : Padded core cs) (ho : Opens core)
    (he : Ends core) : trim cs = core := by
  obtain ⟨front, back, hfront, hback, rfl⟩ := h
  exact trim_append hfront hback ho he

theorem isBlank_of_isAlphanum {c : Char} (h : c.isAlphanum = true) : isBlank c = false := by
  change (decide (65 ≤ c.toNat ∧ c.toNat ≤ 90) || (97 ≤ c.toNat && c.toNat ≤ 122) ||
    (48 ≤ c.toNat && c.toNat ≤ 57)) = true at h
  simp only [Bool.or_eq_true, Bool.and_eq_true, decide_eq_true_eq] at h
  simp only [isBlank, Bool.or_eq_false_iff, Bool.and_eq_false_iff, decide_eq_false_iff_not,
    beq_eq_false_iff_ne]
  omega

/-! ## Tidy text -/

/-- Brackets match, and there is no blank at either end. -/
structure Tidy (commas : Bool) (cs : List Char) : Prop where
  balanced : Balanced commas cs
  opens : Opens cs
  ends : Ends cs

namespace Tidy

variable {commas : Bool} {cs : List Char}

theorem trim_behind (h : Tidy commas cs) (front : List Char) (hf : front.all isBlank = true) :
    trim (front ++ cs) = cs := by
  simpa using @trim_append front cs [] hf rfl h.opens h.ends

theorem trim_before (h : Tidy commas cs) (back : List Char) (hb : back.all isBlank = true) :
    trim (cs ++ back) = cs := @trim_append [] cs back rfl hb h.opens h.ends

theorem trim_eq (h : Tidy commas cs) : trim cs = cs := h.trim_behind [] rfl

theorem withCommas (h : Tidy commas cs) : Tidy true cs := ⟨h.balanced.commas, h.opens, h.ends⟩

/-- Tidy text behind text that opens with no blank is tidy. -/
theorem behind (h : Tidy commas cs) {front : List Char} (hf : Balanced commas front)
    (ho : Opens front) : Tidy commas (front ++ cs) :=
  ⟨hf.append h.balanced, ho.append cs, h.ends.append front⟩

/-- Tidy texts may be joined by any balanced text. -/
theorem join (h : Tidy commas cs) {middle ds : List Char} (hm : Balanced commas middle)
    (hd : Tidy commas ds) : Tidy commas (cs ++ (middle ++ ds)) :=
  ⟨h.balanced.append (hm.append hd.balanced), h.opens.append _, (hd.ends.append _).append _⟩

/-- Tidy text in brackets is tidy, and so is any balanced text in brackets. -/
theorem enclose {b : Bool} {o c : Char} (hp : IsPair o c) (h : Balanced b cs) :
    Tidy commas (o :: cs ++ [c]) := by
  refine ⟨h.enclose hp, opens_cons ?_ _, ends_concat ?_ _⟩
  · rcases hp with ⟨rfl, -⟩ | ⟨rfl, -⟩ <;> rfl
  · rcases hp with ⟨-, rfl⟩ | ⟨-, rfl⟩ <;> rfl

end Tidy

/-- The character is neither blank nor a delimiter. -/
def isInk (c : Char) : Bool := !isBlank c && isPlain c && c != ','

theorem Balanced.of_isInk {commas : Bool} {cs : List Char} (h : cs.all isInk = true) :
    Balanced commas cs := by
  simp only [List.all_eq_true, isInk, Bool.and_eq_true] at h
  refine .of_all (List.all_eq_true.mpr fun c hc => ?_)
  rw [Bool.and_eq_true]
  exact ⟨(h c hc).1.2, (h c hc).2⟩

/-- Text of characters that are neither blank nor delimiters is tidy. -/
theorem tidy_of_all {commas : Bool} {cs : List Char} (hne : cs ≠ [])
    (h : cs.all isInk = true) : Tidy commas cs := by
  have hblank : ∀ c ∈ cs, isBlank c = false := by
    intro c hc
    have hink := List.all_eq_true.mp h c hc
    simp only [isInk, Bool.and_eq_true, Bool.not_eq_true'] at hink
    exact hink.1.1
  exact ⟨.of_isInk h, opens_of_all hne hblank, ends_of_all hne hblank⟩

theorem isInk_of_isAlphanum {c : Char} (h : c.isAlphanum = true) : isInk c = true := by
  have hplain : ∀ d, d.isAlphanum = false → c ≠ d := by
    rintro d hd rfl
    rw [h] at hd
    cases hd
  simp [isInk, isPlain, isOpening, isClosing, isBlank_of_isAlphanum h, hplain]

end BigStep.Text
