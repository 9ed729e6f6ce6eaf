import BigStep.Proofs.Token.Spelling

/-!
# Positions of tokens

Each item of a text starts behind the one before it, the end included; so a position belongs to one
token at most.
-/

namespace BigStep

/-- The byte offset of the character or token that the error is about. -/
def ParseError.position : ParseError → Nat
  | unknownCharacter _ position => position
  | unexpectedToken _ _ position => position
  | literalTooLarge _ position => position
  | nestingTooDeep position => position

/-- Results succeed together just if each of them does. -/
theorem mapM_id_eq_ok_iff {ε α : Type} {results : List (Except ε α)} {as : List α} :
    results.mapM id = .ok as ↔ results = as.map .ok := by
  induction results generalizing as with
  | nil => cases as <;> simp [pure, Except.pure]
  | cons result results ih =>
    rw [List.mapM_cons]
    cases result with
    | error e => cases as <;> simp [bind, Except.bind]
    | ok a =>
      cases as with
      | nil => cases results.mapM id <;> simp [bind, Except.bind, pure, Except.pure]
      | cons b bs =>
        rw [List.map_cons, List.cons.injEq, Except.ok.injEq, ← ih]
        cases results.mapM id <;> simp [bind, Except.bind, pure, Except.pure]

theorem byteLength_pos {cs : List Char} (h : cs ≠ []) : 0 < byteLength cs := by
  obtain ⟨c, cs, rfl⟩ := List.exists_cons_of_ne_nil h
  have hc := c.utf8Size_pos
  rw [byteLength]
  omega

theorem lexeme_ne_nil (c : Char) (cs : List Char) : (readItem c cs).lexeme ≠ [] := by
  intro hnil
  have happend := lexeme_append_rest c cs
  have hle := readItem_rest_length_le c cs
  rw [hnil, List.nil_append] at happend
  rw [happend, List.length_cons] at hle
  omega

namespace Cursor

theorem position_le_skipLayout (c : Cursor) : c.position ≤ c.skipLayout.position :=
  Nat.le_add_right _ _

/-- The place behind an item is further on. -/
theorem skipLayout_position_lt {c : Cursor} {char : Char} {chars : List Char}
    (h : c.skipLayout.rest = char :: chars) : c.skipLayout.position < c.next.2.position := by
  have hpos := byteLength_pos (lexeme_ne_nil char chars)
  simp only [next, h]
  omega

/-- The byte offset of an item. -/
def positionOf : Except ParseError Located → Nat
  | .ok l => l.position
  | .error e => e.position

theorem positionOf_locate (position : Nat) (content : Except Char Token) :
    positionOf (locate position content) = position := by
  cases content <;> rfl

/-- The items from a place on start there or later, and each one behind the one before it. -/
theorem positions_items (c : Cursor) :
    (∀ i ∈ c.items, c.position ≤ positionOf i) ∧
      c.items.Pairwise (fun i j => positionOf i < positionOf j) := by
  induction c using items.induct with
  | case1 c hnil =>
    rw [items_of_nil hnil]
    simp [positionOf, position_le_skipLayout]
  | case2 c hne ih =>
    obtain ⟨char, chars, hcons⟩ := List.exists_cons_of_ne_nil hne
    obtain ⟨hle, hpairwise⟩ := ih
    have hskip := c.position_le_skipLayout
    have hlt := skipLayout_position_lt hcons
    rw [(items_of_cons hcons).1]
    refine ⟨List.forall_mem_cons.mpr ⟨?_, fun i hi => ?_⟩, .cons (fun i hi => ?_) hpairwise⟩
    · rw [positionOf_locate]
      exact hskip
    · have := hle i hi
      omega
    · have := hle i hi
      rw [positionOf_locate]
      omega

/-- The tokens from a place on start there or later, and each one behind the one before it. -/
theorem positions_of_mapM_items {c : Cursor} {located : List Located}
    (h : c.items.mapM id = .ok located) :
    (∀ l ∈ located, c.position ≤ l.position) ∧
      located.Pairwise (fun l k => l.position < k.position) := by
  have hpositions := c.positions_items
  rw [mapM_id_eq_ok_iff.mp h, List.forall_mem_map, List.pairwise_map] at hpositions
  exact hpositions

end Cursor

/-- No other token of a text has the position of this one. -/
theorem position_ne_of_tokenize {source : String} {before after : List Located} {l : Located}
    (h : tokenize source = .ok (before ++ l :: after)) :
    ∀ k ∈ before ++ after, k.position ≠ l.position := by
  obtain ⟨-, hpairwise⟩ := Cursor.positions_of_mapM_items h
  rw [List.pairwise_append, List.pairwise_cons] at hpairwise
  obtain ⟨-, ⟨hafter, -⟩, hbefore⟩ := hpairwise
  rw [List.forall_mem_append]
  exact ⟨fun k hk => Nat.ne_of_lt (hbefore k hk l List.mem_cons_self),
    fun k hk => Nat.ne_of_gt (hafter k hk)⟩

/-- A position of a token tells which one it is. -/
theorem eq_of_position_eq {source : String} {before before' after after' : List Located}
    {l l' : Located} (h : tokenize source = .ok (before ++ l :: after))
    (heq : before ++ l :: after = before' ++ l' :: after') (hposition : l.position = l'.position) :
    before = before' ∧ l = l' := by
  have hne := position_ne_of_tokenize h
  rw [heq] at h
  have hne' := position_ne_of_tokenize h
  rcases List.append_eq_append_iff.mp heq with ⟨more, rfl, hmore⟩ | ⟨more, rfl, hmore⟩
  · cases more with
    | nil =>
      obtain ⟨rfl, -⟩ := List.cons.inj hmore
      exact ⟨(List.append_nil _).symm, rfl⟩
    | cons k more =>
      obtain ⟨rfl, -⟩ := List.cons.inj hmore
      exact absurd hposition (hne' l (by simp))
  · cases more with
    | nil =>
      obtain ⟨rfl, -⟩ := List.cons.inj hmore
      exact ⟨List.append_nil _, rfl⟩
    | cons k more =>
      obtain ⟨rfl, -⟩ := List.cons.inj hmore
      exact absurd hposition.symm (hne l' (by simp))

end BigStep
