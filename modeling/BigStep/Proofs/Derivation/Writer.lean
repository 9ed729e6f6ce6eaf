import BigStep.Derivation.Writer
import BigStep.Proofs.Derivation.Lines

/-!
# What a writer can lay out

A writer lays a derivation out as `Derivation.render` does, as long as the padding of the deepest
node is not too wide for it. Beyond that it stops, or writes lines that are too short.

* `Derivation.deepest`: the depth of the deepest node.
* `Build.writeAt_eq_render`: where the deepest node fits, the writer gives the text.
* `Build.writeAt_eq_some_render_iff`: nowhere else does it, whatever the build. What it writes is
  never longer than the text, and shorter where a product left the word.
* `Build.writeAt_eq_ite`: from a depth at which no product leaves the word, it gives the text or
  stops.
* `Build.writeAt_layout`: the layout of what is written.
* `Build.writeAt_large_depth`: at depths that are too large there is none, in either build.
-/

namespace BigStep

open Text

namespace Derivation

mutual

/-- The depth of the deepest node, where that of the root is zero. -/
def deepest : Derivation → Nat
  | ⟨_, _, premises⟩ => deepestAll premises

/-- The depth of the deepest node below a root with these premises. -/
def deepestAll : List Derivation → Nat
  | [] => 0
  | d :: ds => max (d.deepest + 1) (deepestAll ds)

end

theorem deepestAll_le_iff {ds : List Derivation} {n : Nat} :
    deepestAll ds ≤ n ↔ ∀ d ∈ ds, d.deepest + 1 ≤ n := by
  induction ds with
  | nil => simp [deepestAll]
  | cons d ds ih => rw [deepestAll, Nat.max_le, ih, List.forall_mem_cons]

theorem deepest_le_iff {d : Derivation} {n : Nat} :
    d.deepest ≤ n ↔ ∀ p ∈ d.premises, p.deepest + 1 ≤ n := by
  obtain ⟨judgment, rule, premises⟩ := d
  rw [deepest, deepestAll_le_iff]

/-- The deepest node is the one at the greatest depth in the tree. -/
theorem add_deepest_le_iff {d : Derivation} {depth n : Nat} :
    depth + d.deepest ≤ n ↔ ∀ node ∈ d.placed depth, node.1 ≤ n := by
  induction d using Derivation.induction generalizing depth with
  | node d ih =>
    rw [placed_eq, List.forall_mem_cons, List.forall_mem_flatMap]
    constructor
    · intro h
      have hbelow := deepest_le_iff.mp (Nat.le_refl d.deepest)
      refine ⟨by omega, fun p hp => (ih p hp).mp ?_⟩
      have := hbelow p hp
      omega
    · rintro ⟨hroot, hbelow⟩
      have hdeepest : d.deepest ≤ n - depth := deepest_le_iff.mpr fun p hp => by
        have := (ih p hp).mpr (hbelow p hp)
        omega
      omega

/-- The text of a derivation, made of the padding of its own lines and the text of its premises. -/
def frame (d : Derivation) (pad inner : String) : String :=
  let head := d.judgment.text ++ " by " ++ d.rule.name
  match d.premises with
  | [] => pad ++ (head ++ " \x7b\x7d;") ++ "\n"
  | _ :: _ => pad ++ (head ++ " \x7b") ++ "\n" ++ inner ++ (pad ++ "\x7d;" ++ "\n")

theorem render_eq_frame (depth : Nat) (d : Derivation) :
    d.render depth = d.frame (spaces (depth * indentWidth)) (renderAll (depth + 1) d.premises) := by
  obtain ⟨judgment, rule, premises⟩ := d
  cases premises <;> rfl

/-- Less padding and less inside make a shorter text. -/
theorem length_frame_le (d : Derivation) {pad pad' inner inner' : String}
    (hpad : pad.length ≤ pad'.length) (hinner : inner.length ≤ inner'.length) :
    (d.frame pad inner).length ≤ (d.frame pad' inner').length ∧
      ((d.frame pad inner).length = (d.frame pad' inner').length →
        pad.length = pad'.length ∧ (d.premises ≠ [] → inner.length = inner'.length)) := by
  obtain ⟨judgment, rule, premises⟩ := d
  cases premises with
  | nil =>
    simp only [frame, String.length_append]
    exact ⟨by omega, fun h => ⟨by omega, fun hne => absurd rfl hne⟩⟩
  | cons p ps =>
    simp only [frame, String.length_append]
    exact ⟨by omega, fun h => ⟨by omega, fun _ => by omega⟩⟩

/-- The derivation of `|- 1 evalto 1`. -/
def oneLeaf : Derivation := ⟨.evalTo .empty (.int 1) (.int 1), .int, []⟩

end Derivation

namespace Build

variable {b : Build}

/-! ## Words and padding -/

/-- A number in range is its own word. -/
theorem exists_word {n : Nat} (h : n < UInt64.size) (b : Build) :
    ∃ w, b.word n = some w ∧ w.toNat = n :=
  ⟨UInt64.ofNat n, if_pos h, UInt64.toNat_ofNat_of_lt' h⟩

/-- A word is never more than the number it is for. -/
theorem toNat_le_of_word {n : Nat} {w : UInt64} (h : b.word n = some w) : w.toNat ≤ n := by
  have hw : w = UInt64.ofNat n := by
    unfold word at h
    split at h
    · cases h
      rfl
    · split at h <;> cases h
      rfl
  rw [hw, UInt64.toNat_ofNat']
  exact Nat.mod_le n _

/-- Where the product does not leave the word, there is the padding of the layout or none. -/
theorem padding_eq_ite {depth : UInt64} (h : 4 * depth.toNat < UInt64.size) :
    b.padding depth =
      if 4 * depth.toNat ≤ b.maxWidth.toNat then
        some (spaces (depth.toNat * Derivation.indentWidth))
      else none := by
  have hwidth : depth.toNat * Derivation.indentWidth = 4 * depth.toNat := Nat.mul_comm _ _
  obtain ⟨width, hword, htoNat⟩ := b.exists_word h
  simp only [padding, hwidth, hword, Option.bind_eq_bind, Option.bind_some,
    UInt64.le_iff_toNat_le, htoNat]

theorem padding_of_le {depth : UInt64} (h : 4 * depth.toNat ≤ b.maxWidth.toNat) :
    b.padding depth = some (spaces (depth.toNat * Derivation.indentWidth)) := by
  rw [padding_eq_ite (Nat.lt_of_le_of_lt h b.maxWidth.toNat_lt_size), if_pos h]

/-- Padding is never wider than it should be, nor than the formatter allows. -/
theorem length_of_padding {depth : UInt64} {pad : String} (h : b.padding depth = some pad) :
    pad.length ≤ 4 * depth.toNat ∧ pad.length ≤ b.maxWidth.toNat := by
  obtain ⟨width, hword, hwidth⟩ := Option.bind_eq_some_iff.mp h
  have hle := toNat_le_of_word hword
  rw [Derivation.indentWidth] at hle
  split at hwidth
  · next hmax =>
    cases hwidth
    rw [UInt64.le_iff_toNat_le] at hmax
    rw [spaces, String.length_ofList, List.length_replicate]
    omega
  · cases hwidth

/-! ## Where the deepest node fits -/

theorem writeAt_eq_frame (b : Build) (depth : UInt64) (d : Derivation) :
    b.writeAt depth d = (b.padding depth).bind fun pad =>
      (b.writeAll depth d.premises).map (d.frame pad) := by
  obtain ⟨judgment, rule, premises⟩ := d
  cases premises with
  | nil => rfl
  | cons p ps =>
    simp only [writeAt, Option.map_eq_bind]
    rfl

theorem writeAll_eq_renderAll {depth : UInt64} {ds : List Derivation}
    (h : ∀ d ∈ ds, ∃ deeper, b.word (depth.toNat + 1) = some deeper ∧
      b.writeAt deeper d = some (d.render (depth.toNat + 1))) :
    b.writeAll depth ds = some (Derivation.renderAll (depth.toNat + 1) ds) := by
  induction ds with
  | nil => rfl
  | cons d ds ih =>
    obtain ⟨⟨deeper, hword, hfirst⟩, hlater⟩ := List.forall_mem_cons.mp h
    simp [writeAll, hword, hfirst, ih hlater, Derivation.renderAll]

/-- Where the padding of the deepest node is not too wide, the writer gives the text. -/
theorem writeAt_eq_render {depth : UInt64} {d : Derivation}
    (h : 4 * (depth.toNat + d.deepest) ≤ b.maxWidth.toNat) :
    b.writeAt depth d = some (d.render depth.toNat) := by
  induction d using Derivation.induction generalizing depth with
  | node d ih =>
    have hinner : b.writeAll depth d.premises =
        some (Derivation.renderAll (depth.toNat + 1) d.premises) := by
      refine writeAll_eq_renderAll fun p hp => ?_
      have hbelow := Derivation.deepest_le_iff.mp (Nat.le_refl d.deepest) p hp
      have hmax := b.maxWidth.toNat_lt_size
      obtain ⟨deeper, hword, hdeeper⟩ := b.exists_word (n := depth.toNat + 1) (by omega)
      have hwritten : b.writeAt deeper p = some (p.render deeper.toNat) := ih p hp (by omega)
      exact ⟨deeper, hword, hdeeper ▸ hwritten⟩
    rw [writeAt_eq_frame, padding_of_le (by omega), hinner, Derivation.render_eq_frame]
    rfl

/-! ## Beyond -/

/-- What is written of a derivation from a depth on, beside its text at a depth that is no less: it
is no longer, and as long only if the padding of the deepest node is not too wide. -/
structure Covered (b : Build) (d : Derivation) (depth : Nat) (text : String) : Prop where
  length_le : text.length ≤ (d.render depth).length
  fits : text.length = (d.render depth).length → 4 * (depth + d.deepest) ≤ b.maxWidth.toNat

theorem length_of_writeAll {depth : UInt64} {n : Nat} {ds : List Derivation} {inner : String}
    (hn : depth.toNat ≤ n)
    (h : ∀ d ∈ ds, ∀ deeper text, deeper.toNat ≤ n + 1 → b.writeAt deeper d = some text →
      b.Covered d (n + 1) text)
    (hinner : b.writeAll depth ds = some inner) :
    inner.length ≤ (Derivation.renderAll (n + 1) ds).length ∧
      (inner.length = (Derivation.renderAll (n + 1) ds).length →
        ∀ d ∈ ds, 4 * (n + 1 + d.deepest) ≤ b.maxWidth.toNat) := by
  induction ds generalizing inner with
  | nil =>
    cases hinner
    exact ⟨Nat.le_refl _, fun _ => nofun⟩
  | cons d ds ih =>
    obtain ⟨hd, hds⟩ := List.forall_mem_cons.mp h
    simp only [writeAll, Option.bind_eq_bind, Option.bind_eq_some_iff] at hinner
    obtain ⟨deeper, hword, first, hfirst, later, hlater, hjoin⟩ := hinner
    cases hjoin
    have hdeeper := toNat_le_of_word hword
    have hcovered := hd deeper first (by omega) hfirst
    obtain ⟨hle, hfits⟩ := ih hds hlater
    have hfirstLe := hcovered.length_le
    rw [Derivation.renderAll, String.length_append, String.length_append]
    refine ⟨by omega, fun heq => List.forall_mem_cons.mpr ⟨?_, hfits (by omega)⟩⟩
    exact hcovered.fits (by omega)

/-- What is written is never too long, and where it is as long as it should be the padding is within
the width of the formatter. A word may be less than the number it is for, so this is said of every
depth that is no less. -/
theorem covered_of_writeAt {depth : UInt64} {n : Nat} {d : Derivation} {text : String}
    (hn : depth.toNat ≤ n) (h : b.writeAt depth d = some text) : b.Covered d n text := by
  induction d using Derivation.induction generalizing depth n text with
  | node d ih =>
    rw [writeAt_eq_frame] at h
    obtain ⟨pad, hpad, hframe⟩ := Option.bind_eq_some_iff.mp h
    obtain ⟨inner, hinner, rfl⟩ := Option.map_eq_some_iff.mp hframe
    obtain ⟨hwidth, hmax⟩ := length_of_padding hpad
    obtain ⟨hle, hbelow⟩ := length_of_writeAll hn
      (fun p hp deeper text hdeeper hwrite => ih p hp hdeeper hwrite) hinner
    have hspaces : (spaces (n * Derivation.indentWidth)).length = 4 * n := by
      simp [spaces, Derivation.indentWidth, Nat.mul_comm]
    have hpadLe : pad.length ≤ (spaces (n * Derivation.indentWidth)).length := by omega
    obtain ⟨hlength, hexact⟩ := d.length_frame_le hpadLe hle
    rw [← Derivation.render_eq_frame] at hlength hexact
    refine ⟨hlength, fun heq => ?_⟩
    obtain ⟨hpadExact, hinnerExact⟩ := hexact heq
    have hdeepest : d.deepest ≤ b.maxWidth.toNat / 4 - n := by
      refine Derivation.deepest_le_iff.mpr fun p hp => ?_
      have := hbelow (hinnerExact (List.ne_nil_of_mem hp)) p hp
      omega
    omega

/-- A writer gives the text of a derivation just where the padding of the deepest node is not too
wide. -/
theorem writeAt_eq_some_render_iff {depth : UInt64} {d : Derivation} :
    b.writeAt depth d = some (d.render depth.toNat) ↔
      4 * (depth.toNat + d.deepest) ≤ b.maxWidth.toNat :=
  ⟨fun h => (covered_of_writeAt (Nat.le_refl _) h).fits rfl, writeAt_eq_render⟩

/-! ## Depths at which no product leaves the word

The formatter stops the run before a product can wrap, if it is not asked to start with one that
does. So there is the text or nothing. -/

theorem eq_renderAll_of_writeAll {depth : UInt64} {ds : List Derivation} {inner : String}
    (hdepth : depth.toNat + 1 < UInt64.size)
    (h : ∀ d ∈ ds, ∀ deeper text, deeper.toNat = depth.toNat + 1 →
      b.writeAt deeper d = some text → text = d.render deeper.toNat)
    (hinner : b.writeAll depth ds = some inner) :
    inner = Derivation.renderAll (depth.toNat + 1) ds := by
  obtain ⟨deeper, hword, hdeeper⟩ := b.exists_word hdepth
  induction ds generalizing inner with
  | nil =>
    cases hinner
    rfl
  | cons d ds ih =>
    obtain ⟨hd, hds⟩ := List.forall_mem_cons.mp h
    simp only [writeAll, hword, Option.bind_eq_bind, Option.bind_some,
      Option.bind_eq_some_iff] at hinner
    obtain ⟨first, hfirst, later, hlater, hjoin⟩ := hinner
    cases hjoin
    rw [Derivation.renderAll, hd deeper first hdeeper hfirst, hdeeper, ih hds hlater]

theorem eq_render_of_writeAt {depth : UInt64} {d : Derivation} {text : String}
    (hmax : b.maxWidth.toNat + 4 < UInt64.size) (hdepth : 4 * depth.toNat < UInt64.size)
    (h : b.writeAt depth d = some text) : text = d.render depth.toNat := by
  induction d using Derivation.induction generalizing depth text with
  | node d ih =>
    rw [writeAt_eq_frame] at h
    obtain ⟨pad, hpad, hframe⟩ := Option.bind_eq_some_iff.mp h
    obtain ⟨inner, hinner, rfl⟩ := Option.map_eq_some_iff.mp hframe
    rw [padding_eq_ite hdepth] at hpad
    obtain ⟨hle, hspaces⟩ := Option.ite_none_right_eq_some.mp hpad
    obtain rfl := Option.some.inj hspaces
    have hinnerEq := eq_renderAll_of_writeAll (by omega) (fun p hp deeper text hdeeper hwrite =>
      ih p hp (by omega) hwrite) hinner
    rw [hinnerEq, Derivation.render_eq_frame]

/-- From a depth below `2 ^ 62` on, a writer gives the text of a derivation or stops, and it stops
just where the padding of the deepest node is too wide. -/
theorem writeAt_eq_ite {depth : UInt64} (d : Derivation)
    (hmax : b.maxWidth.toNat + 4 < UInt64.size) (hdepth : 4 * depth.toNat < UInt64.size) :
    b.writeAt depth d =
      if 4 * (depth.toNat + d.deepest) ≤ b.maxWidth.toNat then some (d.render depth.toNat)
      else none := by
  split
  · next hfits => exact writeAt_eq_render hfits
  · next hwide =>
    cases hwritten : b.writeAt depth d with
    | none => rfl
    | some text =>
      rw [eq_render_of_writeAt hmax hdepth hwritten] at hwritten
      exact absurd (writeAt_eq_some_render_iff.mp hwritten) hwide

/-! ## The layout of what is written -/

/-- The layout of a derivation in which all names are identifiers, written from any depth at which
the padding of its deepest node is not too wide. No judgment has a newline inside or begins with a
space, the writer gives a text both from depth zero and from the depth given, and the one is laid
out beside the other. -/
theorem writeAt_layout {d : Derivation} {depth : UInt64}
    (hnames : ∀ name ∈ d.names, IsIdentifier name)
    (hfits : 4 * (depth.toNat + d.deepest) ≤ b.maxWidth.toNat) :
    (∀ node ∈ d.nodes, '\n' ∉ node.judgment.text.toList ∧
      node.judgment.text.toList.head? ≠ some ' ') ∧
    (d.placed 0).map Prod.snd = d.nodes ∧
    ∃ base text, b.writeAt 0 d = some base ∧ b.writeAt depth d = some text ∧
      d.LaidOut depth.toNat base text := by
  have hheaded := Derivation.headed_of_names hnames
  have hzero : 4 * ((0 : UInt64).toNat + d.deepest) ≤ b.maxWidth.toNat := by
    rw [UInt64.toNat_zero]
    omega
  refine ⟨fun node hnode => ⟨?_, (hheaded node hnode).opens.head?_ne⟩, d.map_snd_placed 0, _, _,
    writeAt_eq_render hzero, writeAt_eq_render hfits, Derivation.laidOut_render hheaded _⟩
  exact Judgment.newline_not_mem_text (Derivation.names_judgment hnames hnode)

/-- Three nodes, each a premise of the one before it, at the last depth that has room for them. -/
theorem writeAt_layout_tower :
    (∀ name ∈ Derivation.crowdedTower.names, IsIdentifier name) ∧
      4 * ((16381 : UInt64).toNat + Derivation.crowdedTower.deepest) ≤
        unchecked.maxWidth.toNat ∧
      ∃ base text, unchecked.writeAt 0 Derivation.crowdedTower = some base ∧
        unchecked.writeAt 16381 Derivation.crowdedTower = some text ∧
        Derivation.crowdedTower.LaidOut 16381 base text := by
  have hnames : ∀ name ∈ Derivation.crowdedTower.names, IsIdentifier name := by decide +kernel
  have hfits : 4 * ((16381 : UInt64).toNat + Derivation.crowdedTower.deepest) ≤
      unchecked.maxWidth.toNat := by decide
  exact ⟨hnames, hfits, (writeAt_layout hnames hfits).2.2⟩

/-- At depth `16384` the padding is too wide, even for a leaf. At depth `2 ^ 62` the product leaves
the word: a build that checks it stops, and one that does not writes the line without a space in
front, which is no layout at that depth. -/
theorem writeAt_large_depth :
    (∀ name ∈ Derivation.oneLeaf.names, IsIdentifier name) ∧
      (checked.writeAt 16384 Derivation.oneLeaf = none ∧
        unchecked.writeAt 16384 Derivation.oneLeaf = none) ∧
      checked.writeAt 4611686018427387904 Derivation.oneLeaf = none ∧
      unchecked.writeAt 4611686018427387904 Derivation.oneLeaf = some Derivation.oneLeaf.text ∧
      ∀ base, ¬ Derivation.oneLeaf.LaidOut 4611686018427387904 base Derivation.oneLeaf.text := by
  refine ⟨by decide +kernel, ⟨rfl, rfl⟩, rfl, rfl, fun base h => ?_⟩
  have hlines : (splitLines Derivation.oneLeaf.text.toList).1 =
      ["|- 1 evalto 1 by E-Int \x7b\x7d;".toList] := by decide +kernel
  have hshifted := h.shifted
  rw [hlines, eq_comm, List.map_eq_singleton_iff] at hshifted
  obtain ⟨l, -, hl⟩ := hshifted
  have hlength := congrArg List.length hl
  have hshort : ("|- 1 evalto 1 by E-Int \x7b\x7d;".toList).length = 26 := rfl
  rw [List.length_append, List.length_replicate, hshort] at hlength
  omega

end Build

end BigStep
