import BigStep.Proofs.Text.Offsets
import BigStep.Proofs.Text.Words
import BigStep.Proofs.Value.Format

/-!
# The bindings of an environment, cut apart

An environment is cut at the commas outside its brackets before any binding is read. Round and
square brackets are counted together, so the cut asks less of a text than that brackets match.

* `Level n cs`: where `n` brackets are open before the text, the count is nowhere negative in it and
  zero at its end.
* `topCommas n cs`: the places of the commas at which the count is zero.
* `splitAtDepth?_of_bracket`, `splitAtDepth?_of_neg`: one character, by what it does to the count.
* `exists_splitAtDepth?_iff`: there are parts just if the text is level.
* `length_of_splitAtDepth?`, `parts_of_splitAtDepth?`: there is one part more than such commas, and
  each part is level and has none of them.
* `foldlM_binding_behind`, `decode_comma`: the parts of a text may be read behind other bindings.
* `splitBindings_cuts_top_level`: all of it for whole texts, and environments joined by a comma.
-/

namespace BigStep

namespace Text

/-! ## Level texts -/

/-- Where `n` brackets are open before the text, in no front part of it do more close than are open,
and none is open at its end. -/
structure Level (n : Int) (cs : List Char) : Prop where
  nonneg : ∀ p, p <+: cs → 0 ≤ n + net p
  eq_zero : n + net cs = 0

/-- The places of the commas before which no bracket is open, where `n` are open before the text. -/
def topCommas (n : Int) (cs : List Char) : List Nat :=
  (List.range cs.length).filter fun i => cs[i]? = some ',' ∧ n + net (cs.take i) = 0

/-- A level text that no comma cuts. -/
structure Part (n : Int) (cs : List Char) : Prop where
  level : Level n cs
  topCommas_eq_nil : topCommas n cs = []

theorem level_nil_iff {n : Int} : Level n [] ↔ n = 0 := by
  constructor
  · rintro ⟨-, h⟩
    simpa [net] using h
  · rintro rfl
    exact ⟨fun p hp => by simp [List.prefix_nil.mp hp, net], rfl⟩

theorem level_cons_iff {n : Int} {c : Char} {cs : List Char} :
    Level n (c :: cs) ↔ 0 ≤ n ∧ Level (n + bracket c) cs := by
  constructor
  · rintro ⟨hnonneg, hzero⟩
    refine ⟨by simpa [net] using hnonneg [] List.nil_prefix, fun p hp => ?_, ?_⟩
    · simpa [net, Int.add_assoc] using hnonneg (c :: p) ((List.prefix_cons_inj c).mpr hp)
    · simpa [net, Int.add_assoc] using hzero
  · rintro ⟨hn, hnonneg, hzero⟩
    refine ⟨fun p hp => ?_, by simpa [net, Int.add_assoc] using hzero⟩
    rcases List.prefix_cons_iff.mp hp with rfl | ⟨t, rfl, ht⟩
    · simpa [net] using hn
    · simpa [net, Int.add_assoc] using hnonneg t ht

theorem topCommas_cons (n : Int) (c : Char) (cs : List Char) :
    topCommas n (c :: cs) =
      (if n = 0 ∧ c = ',' then [0] else []) ++ (topCommas (n + bracket c) cs).map (· + 1) := by
  have hfirst : ((c :: cs)[0]? = some ',' ∧ n + net ((c :: cs).take 0) = 0) ↔
      n = 0 ∧ c = ',' := by
    simp [net, and_comm]
  have hlater : (List.map (· + 1) (List.range cs.length)).filter (fun i =>
      (c :: cs)[i]? = some ',' ∧ n + net ((c :: cs).take i) = 0) =
      (topCommas (n + bracket c) cs).map (· + 1) := by
    rw [List.filter_map, topCommas]
    simp [Function.comp_def, net, Int.add_assoc]
  rw [topCommas, List.length_cons, List.range_succ_eq_map, List.filter_cons, hlater]
  by_cases h : n = 0 ∧ c = ','
  · rw [if_pos (decide_eq_true (hfirst.mpr h)), if_pos h, List.singleton_append]
  · rw [if_neg (by simpa only [decide_eq_true_eq, hfirst] using h), if_neg h, List.nil_append]

theorem part_nil : Part 0 [] := ⟨level_nil_iff.mpr rfl, rfl⟩

theorem part_cons {n : Int} {c : Char} {cs : List Char} (hn : 0 ≤ n) (hcomma : ¬(n = 0 ∧ c = ','))
    (h : Part (n + bracket c) cs) : Part n (c :: cs) := by
  refine ⟨level_cons_iff.mpr ⟨hn, h.level⟩, ?_⟩
  rw [topCommas_cons, if_neg hcomma, h.topCommas_eq_nil]
  rfl

/-! ## One character -/

/-- A character takes the number of open brackets from `depth` to `depth'`. It ends a part, or it is
the front of the first part behind it. -/
theorem splitAtDepth?_of_bracket {depth depth' : Nat} {c : Char}
    (h : (depth' : Int) = depth + bracket c) (cs : List Char) :
    splitAtDepth? depth (c :: cs) = (splitAtDepth? depth' cs).map fun ps =>
      if depth = 0 ∧ c = ',' then [] :: ps else ps.modifyHead (c :: ·) := by
  by_cases ho : isOpening c = true
  · obtain rfl : depth' = depth + 1 := by
      simp only [bracket, if_pos ho] at h
      omega
    have hcomma : c ≠ ',' := by
      rintro rfl
      cases ho
    simp [splitAtDepth?_opening ho, hcomma]
  by_cases hc : isClosing c = true
  · obtain rfl : depth = depth' + 1 := by
      simp only [bracket, if_neg ho, if_pos hc] at h
      omega
    simp [splitAtDepth?_closing hc]
  obtain rfl : depth' = depth := by
    simp only [bracket, if_neg ho, if_neg hc] at h
    omega
  by_cases hcomma : depth' = 0 ∧ c = ','
  · obtain ⟨rfl, rfl⟩ := hcomma
    simp [splitAtDepth?_comma]
  · simp [splitAtDepth?_other (by simpa using ho) (by simpa using hc) hcomma, hcomma]

/-- A bracket that closes where none is open leaves no parts. -/
theorem splitAtDepth?_of_neg {depth : Nat} {c : Char} (h : depth + bracket c < 0)
    (cs : List Char) : splitAtDepth? depth (c :: cs) = none := by
  by_cases ho : isOpening c = true
  · simp only [bracket, if_pos ho] at h
    omega
  by_cases hc : isClosing c = true
  · obtain rfl : depth = 0 := by
      simp only [bracket, if_neg ho, if_pos hc] at h
      omega
    simp [splitAtDepth?, ho, hc]
  · simp only [bracket, if_neg ho, if_neg hc] at h
    omega

theorem exists_of_splitAtDepth?_cons {depth : Nat} {c : Char} {cs : List Char}
    {parts : List (List Char)} (h : splitAtDepth? depth (c :: cs) = some parts) :
    ∃ (depth' : Nat) (ps : List (List Char)), (depth' : Int) = depth + bracket c ∧
      splitAtDepth? depth' cs = some ps ∧
      parts = if depth = 0 ∧ c = ',' then [] :: ps else ps.modifyHead (c :: ·) := by
  by_cases hneg : depth + bracket c < 0
  · rw [splitAtDepth?_of_neg hneg] at h
    cases h
  obtain ⟨depth', hdepth⟩ := Int.eq_ofNat_of_zero_le (Int.not_lt.mp hneg)
  rw [splitAtDepth?_of_bracket hdepth.symm] at h
  obtain ⟨ps, hps, hparts⟩ := Option.map_eq_some_iff.mp h
  exact ⟨depth', ps, hdepth.symm, hps, hparts.symm⟩

theorem splitAtDepth?_nil_eq_some_iff {depth : Nat} {parts : List (List Char)} :
    splitAtDepth? depth [] = some parts ↔ depth = 0 ∧ parts = [[]] := by
  cases depth <;> simp [splitAtDepth?, eq_comm]

/-! ## Whole texts -/

/-- There are parts just if the text is level. -/
theorem exists_splitAtDepth?_iff {depth : Nat} {cs : List Char} :
    (∃ parts, splitAtDepth? depth cs = some parts) ↔ Level depth cs := by
  induction cs generalizing depth with
  | nil => simp [splitAtDepth?_nil_eq_some_iff, level_nil_iff]
  | cons c cs ih =>
    rw [level_cons_iff]
    constructor
    · rintro ⟨parts, hparts⟩
      obtain ⟨depth', ps, hdepth, hps, -⟩ := exists_of_splitAtDepth?_cons hparts
      exact ⟨Int.natCast_nonneg depth, hdepth ▸ ih.mp ⟨ps, hps⟩⟩
    · rintro ⟨-, hlevel⟩
      have hnonneg : 0 ≤ depth + bracket c := by
        simpa [net] using hlevel.nonneg [] List.nil_prefix
      obtain ⟨depth', hdepth⟩ := Int.eq_ofNat_of_zero_le hnonneg
      rw [hdepth] at hlevel
      obtain ⟨ps, hps⟩ := ih.mpr hlevel
      rw [splitAtDepth?_of_bracket hdepth.symm, hps]
      exact ⟨_, rfl⟩

/-- There is one part more than commas that cut. -/
theorem length_of_splitAtDepth? {depth : Nat} {cs : List Char} {parts : List (List Char)}
    (h : splitAtDepth? depth cs = some parts) :
    parts.length = (topCommas depth cs).length + 1 := by
  induction cs generalizing depth parts with
  | nil =>
    obtain ⟨rfl, rfl⟩ := splitAtDepth?_nil_eq_some_iff.mp h
    rfl
  | cons c cs ih =>
    obtain ⟨depth', ps, hdepth, hps, rfl⟩ := exists_of_splitAtDepth?_cons h
    have hlater := ih hps
    rw [topCommas_cons, ← hdepth, List.length_append, List.length_map]
    by_cases hcomma : depth = 0 ∧ c = ','
    · simp [hcomma, hlater]
      omega
    · simp [hcomma, hlater]

/-- The first part is level from the brackets that are open before the text, the others on their
own. -/
theorem parts_of_splitAtDepth? {depth : Nat} {cs part : List Char} {parts : List (List Char)}
    (h : splitAtDepth? depth cs = some (part :: parts)) :
    Part depth part ∧ ∀ q ∈ parts, Part 0 q := by
  induction cs generalizing depth part parts with
  | nil =>
    obtain ⟨rfl, hparts⟩ := splitAtDepth?_nil_eq_some_iff.mp h
    cases hparts
    exact ⟨part_nil, by simp⟩
  | cons c cs ih =>
    obtain ⟨depth', ps, hdepth, hps, hparts⟩ := exists_of_splitAtDepth?_cons h
    obtain ⟨p, ps, rfl⟩ := List.exists_cons_of_ne_nil (splitAtDepth?_ne_nil hps)
    obtain ⟨hp, hlater⟩ := ih hps
    by_cases hcomma : depth = 0 ∧ c = ','
    · rw [if_pos hcomma] at hparts
      cases hparts
      obtain ⟨rfl, rfl⟩ := hcomma
      obtain rfl : depth' = 0 := by
        rw [show bracket ',' = 0 from rfl] at hdepth
        omega
      exact ⟨part_nil, List.forall_mem_cons.mpr ⟨hp, hlater⟩⟩
    · rw [if_neg hcomma] at hparts
      cases hparts
      exact ⟨part_cons (Int.natCast_nonneg depth) (by simpa using hcomma) (hdepth ▸ hp), hlater⟩

theorem intercalate_comma (part : List Char) (parts : List (List Char)) :
    [','].intercalate (part :: parts) = part ++ parts.flatMap (',' :: ·) := by
  induction parts generalizing part with
  | nil => simp
  | cons p ps ih =>
    rw [List.intercalate_cons_cons, ih]
    simp

/-- What the parts of a text are, and that nothing of it is lost. -/
theorem splitTopLevel?_sound {cs : List Char} {parts : List (List Char)}
    (h : splitTopLevel? cs = some parts) :
    [','].intercalate parts = cs ∧ parts.length = (topCommas 0 cs).length + 1 ∧
      ∀ part ∈ parts, Part 0 part := by
  obtain ⟨part, parts, rfl⟩ := List.exists_cons_of_ne_nil (splitAtDepth?_ne_nil h)
  refine ⟨?_, length_of_splitAtDepth? h, List.forall_mem_cons.mpr (parts_of_splitAtDepth? h)⟩
  rw [intercalate_comma, eq_of_splitAtDepth? h]

end Text

open Text

/-! ## Environments joined by a comma -/

namespace Decode

/-- Behind other bindings the same bindings are read. -/
theorem foldlM_binding_behind {k : Nat} {value : List Char → Except DecodeError Value}
    (hvalue : ∀ cs v, value cs = .ok v ↔ ValueText k cs v) {parts : List (List Char)}
    {older first later last : Env} (h : parts.foldlM (binding value) first = .ok last)
    (hlater : later.bindings = older.bindings ++ first.bindings) :
    ∃ joined, parts.foldlM (binding value) later = .ok joined ∧
      joined.bindings = older.bindings ++ last.bindings := by
  induction parts generalizing first later with
  | nil =>
    cases h
    exact ⟨later, rfl, hlater⟩
  | cons part parts ih =>
    obtain ⟨next, hnext, hrest⟩ := isOk_bind h
    obtain ⟨name, v, hbinding, rfl⟩ := bindingText_of_binding hvalue hnext
    rw [List.foldlM_cons, binding_of_bindingText hvalue hbinding]
    refine ih hrest ?_
    rw [Env.bindings, Env.bindings, hlater, List.append_assoc]

theorem bindingsText_of_decode {text : String} {env : Env} (hblank : trim text.toList ≠ [])
    (h : Env.decode text = .ok env) : BindingsText 0 text.toList env := by
  have henv : EnvText 0 text.toList env := (environment_closureIn_eq_ok_iff 0 _ _).mp h
  cases henv with
  | blank hall => exact absurd (trim_eq_nil_iff.mpr hall) hblank
  | bindings hbindings => exact hbindings

/-- The second text is cut apart, and its parts are read behind the bindings of the first. -/
theorem decode_comma {text₁ text₂ : String} {env₁ env₂ : Env} (hblank₁ : trim text₁.toList ≠ [])
    (hblank₂ : trim text₂.toList ≠ []) (h₁ : Env.decode text₁ = .ok env₁)
    (h₂ : Env.decode text₂ = .ok env₂) :
    ∃ env, Env.decode (text₁ ++ "," ++ text₂) = .ok env ∧
      env.bindings = env₁.bindings ++ env₂.bindings := by
  have hvalue := valueForm_closureIn_eq_ok_iff 0
  have hbindings₁ := bindingsText_of_decode hblank₁ h₁
  obtain ⟨parts, hsplit, hparts⟩ :=
    foldlM_of_bindingsText hvalue (bindingsText_of_decode hblank₂ h₂)
  obtain ⟨env, henv, hbindings⟩ :=
    foldlM_binding_behind hvalue hparts (List.append_nil env₁.bindings).symm
  have hjoined := bindingsText_of_foldlM hvalue hbindings₁ henv
  obtain ⟨part, parts, rfl⟩ := List.exists_cons_of_ne_nil (splitAtDepth?_ne_nil hsplit)
  have htext : text₁.toList ++ (part :: parts).flatMap (',' :: ·) =
      (text₁ ++ "," ++ text₂).toList := by
    rw [List.flatMap_cons, List.cons_append, ← eq_of_splitAtDepth? hsplit]
    simp
  rw [htext] at hjoined
  exact ⟨env, (environment_closureIn_eq_ok_iff 0 _ _).mpr (.bindings hjoined), hbindings⟩

/-! ## The cut -/

theorem toOption_splitBindings (text : List Char) :
    (splitBindings text).toOption = splitTopLevel? text := by
  unfold splitBindings
  cases splitTopLevel? text <;> rfl

/-- A text is cut apart just if its brackets are level. Then the parts with commas between them make
up the text, there is one more of them than commas outside all brackets, and each part is level and
has no such comma. A scan by byte offsets cuts only between characters, and finds the same. Two
environments that are not blank may be joined by a comma, and have their bindings in order. -/
theorem splitBindings_cuts_top_level :
    (∀ text : String,
      ((∃ parts, splitBindings text.toList = .ok parts) ↔ Level 0 text.toList) ∧
      (∀ parts, splitBindings text.toList = .ok parts →
        [','].intercalate parts = text.toList ∧
        parts.length = (topCommas 0 text.toList).length + 1 ∧
        ∀ part ∈ parts, Level 0 part ∧ topCommas 0 part = []) ∧
      partsByOffset text =
        .ok ((splitBindings text.toList).toOption.map (·.map String.ofList))) ∧
    ∀ (text₁ text₂ : String) (env₁ env₂ : Env), trim text₁.toList ≠ [] → trim text₂.toList ≠ [] →
      Env.decode text₁ = .ok env₁ → Env.decode text₂ = .ok env₂ →
      ∃ env, Env.decode (text₁ ++ "," ++ text₂) = .ok env ∧
        env.bindings = env₁.bindings ++ env₂.bindings := by
  refine ⟨fun text => ⟨?_, fun parts h => ?_, ?_⟩, fun _ _ _ _ => decode_comma⟩
  · simp only [splitBindings_eq_ok_iff]
    exact exists_splitAtDepth?_iff
  · obtain ⟨hjoin, hlength, hparts⟩ := splitTopLevel?_sound (splitBindings_eq_ok_iff.mp h)
    exact ⟨hjoin, hlength, fun part hpart =>
      ⟨(hparts part hpart).level, (hparts part hpart).topCommas_eq_nil⟩⟩
  · rw [partsByOffset_eq, toOption_splitBindings]

/-- An environment with a comma inside a closure. -/
def capturedText : String := "x = 1, f = (a = 2, b = 3)[fun y -> a]"

/-- The environment that `capturedText` denotes. -/
def capturedEnv : Env :=
  (Env.empty.extend "x" (.int 1)).extend "f"
    (.closure ((Env.empty.extend "a" (.int 2)).extend "b" (.int 3)) ⟨none, "y", .var "a"⟩)

/-- The comma inside the closure does not cut, and a name may be bound again behind the comma that
joins. -/
theorem splitBindings_cuts_top_level_captured :
    splitBindings capturedText.toList =
      .ok ["x = 1".toList, " f = (a = 2, b = 3)[fun y -> a]".toList] ∧
    topCommas 0 capturedText.toList = [5] ∧
    Level 0 " f = (a = 2, b = 3)[fun y -> a]".toList ∧
    Env.decode capturedText = .ok capturedEnv ∧
    ∃ env, Env.decode (capturedText ++ "," ++ " x = true") = .ok env ∧
      env.bindings = capturedEnv.bindings ++ [("x", .bool true)] := by
  have hsplit : splitBindings capturedText.toList =
      .ok ["x = 1".toList, " f = (a = 2, b = 3)[fun y -> a]".toList] := rfl
  have hdecode : Env.decode capturedText = .ok capturedEnv := eq_ok_of_toOption (by decide +kernel)
  have hlast : Env.decode " x = true" = .ok (Env.empty.extend "x" (.bool true)) :=
    eq_ok_of_toOption (by decide +kernel)
  obtain ⟨htext, hjoin⟩ := splitBindings_cuts_top_level
  obtain ⟨-, -, hparts⟩ := (htext capturedText).2.1 _ hsplit
  refine ⟨hsplit, by decide +kernel, (hparts _ (by simp)).1, hdecode, ?_⟩
  exact hjoin _ _ _ _ (by decide +kernel) (by decide +kernel) hdecode hlast

end Decode

end BigStep
