import Mathlib.Data.List.Basic
import BigStep.Proofs.Derivation.Injective

/-!
# The lines of a derivation

How the text of a derivation is laid out, said of its lines: what is read off the text alone, and
what belongs to which node of the tree.

* `Text.splitLines`: the lines of a text, and what stands behind the last newline.
* `Nested`: lines whose braces match, and whose indentation tells how deep they stand in braces.
* `Derivation.placed`: the nodes in pre-order, each with its depth in the tree.
* `Derivation.lines`: the lines of a derivation, which follow the tree. `lines_add`, `length_lines`,
  `nested_lines`, `filter_lines` say what they are like.
* `Derivation.splitLines_render`: these are the lines of the text.
* `Derivation.LaidOut`: all of it as one property of a text. `laidOut_render`: the text has it at any
  depth.
-/

namespace BigStep

open Text

/-! ## Lines of a text -/

namespace Text

/-- The lines of a text, without the newlines that end them, and what stands behind the last one. -/
def splitLines : List Char → List (List Char) × List Char
  | [] => ([], [])
  | c :: cs =>
    let (ls, tail) := splitLines cs
    if c = '\n' then ([] :: ls, tail)
    else
      match ls with
      | [] => ([], c :: tail)
      | l :: ls => ((c :: l) :: ls, tail)

theorem splitLines_append {l : List Char} (h : '\n' ∉ l) (cs : List Char) :
    splitLines (l ++ '\n' :: cs) = (l :: (splitLines cs).1, (splitLines cs).2) := by
  induction l with
  | nil => rfl
  | cons c l ih =>
    rw [List.mem_cons, not_or] at h
    rw [List.cons_append, splitLines, ih h.2]
    simp [Ne.symm h.1]

/-- Lines that are ended by newlines, and have none inside, are found again. -/
theorem splitLines_flatMap {ls : List (List Char)} (h : ∀ l ∈ ls, '\n' ∉ l) :
    splitLines (ls.flatMap (· ++ ['\n'])) = (ls, []) := by
  induction ls with
  | nil => rfl
  | cons l ls ih =>
    obtain ⟨hl, hls⟩ := List.forall_mem_cons.mp h
    rw [List.flatMap_cons, List.append_assoc, List.singleton_append, splitLines_append hl, ih hls]

end Text

/-- The spaces in front of a line at a depth. -/
def indent (depth : Nat) : List Char := List.replicate (depth * 4) ' '

theorem indent_add (k depth : Nat) : indent (k + depth) = indent k ++ indent depth := by
  rw [indent, Nat.add_mul, ← List.replicate_append_replicate, indent, indent]

theorem dropWhile_indent (depth : Nat) {text : List Char} (h : text.head? ≠ some ' ') :
    (indent depth ++ text).dropWhile (· == ' ') = text := by
  have hspaces : ∀ c ∈ indent depth, (c == ' ') = true := by
    intro c hc
    simp [List.eq_of_mem_replicate hc]
  rw [List.dropWhile_append_of_pos hspaces]
  cases text with
  | nil => rfl
  | cons c cs => exact List.dropWhile_cons_of_neg (by simpa using h)

/-- The line has nothing but a closing brace. -/
def isClosing (line : List Char) : Bool := line.dropWhile (· == ' ') == "\x7d;".toList

theorem isClosing_indent (depth : Nat) {text : List Char} (h : text.head? ≠ some ' ') :
    isClosing (indent depth ++ text) = (text == "\x7d;".toList) := by
  rw [isClosing, dropWhile_indent depth h]

/-- Lines at a depth whose braces match. What stands between an opening and its closing line is one
step deeper, and is not nothing. -/
inductive Nested : (depth : Nat) → List (List Char) → Prop
  | nil {depth : Nat} : Nested depth []
  | leaf {depth : Nat} {text : List Char} {rest : List (List Char)} (htext : text.head? ≠ some ' ')
      (hrest : Nested depth rest) :
      Nested depth ((indent depth ++ (text ++ " \x7b\x7d;".toList)) :: rest)
  | block {depth : Nat} {text : List Char} {inner rest : List (List Char)}
      (htext : text.head? ≠ some ' ') (hne : inner ≠ []) (hinner : Nested (depth + 1) inner)
      (hrest : Nested depth rest) :
      Nested depth ((indent depth ++ (text ++ " \x7b".toList)) ::
        (inner ++ (indent depth ++ "\x7d;".toList) :: rest))

theorem Nested.append {depth : Nat} {ls ls' : List (List Char)} (h : Nested depth ls)
    (h' : Nested depth ls') : Nested depth (ls ++ ls') := by
  induction h with
  | nil => exact h'
  | leaf htext _ ih => exact .leaf htext (ih h')
  | block htext hne hinner _ _ ih =>
    have hblock := Nested.block htext hne hinner (ih h')
    simpa using hblock

theorem Nested.flatMap {α : Type} {depth : Nat} {f : α → List (List Char)} {as : List α}
    (h : ∀ a ∈ as, Nested depth (f a)) : Nested depth (as.flatMap f) := by
  induction as with
  | nil => exact .nil
  | cons a as ih =>
    obtain ⟨ha, has⟩ := List.forall_mem_cons.mp h
    exact ha.append (ih has)

/-! ## Lines of a tree -/

namespace Derivation

mutual

/-- The nodes in pre-order, each with its depth. The root is at the depth given. -/
def placed (depth : Nat) : Derivation → List (Nat × Derivation)
  | ⟨judgment, rule, premises⟩ =>
    (depth, ⟨judgment, rule, premises⟩) :: placedAll (depth + 1) premises

/-- The nodes of several trees, whose roots are at the depth given. -/
def placedAll (depth : Nat) : List Derivation → List (Nat × Derivation)
  | [] => []
  | d :: ds => d.placed depth ++ placedAll depth ds

end

/-- The line that closes a derivation, if it has premises. -/
def closing (depth : Nat) : List Derivation → List (List Char)
  | [] => []
  | _ :: _ => [indent depth ++ "\x7d;".toList]

mutual

/-- The lines of a derivation at a depth. -/
def lines (depth : Nat) : Derivation → List (List Char)
  | ⟨judgment, rule, premises⟩ =>
    (indent depth ++ headline ⟨judgment, rule, premises⟩) ::
      (linesAll (depth + 1) premises ++ closing depth premises)

/-- The lines of several derivations, one after the other. -/
def linesAll (depth : Nat) : List Derivation → List (List Char)
  | [] => []
  | d :: ds => d.lines depth ++ linesAll depth ds

end

theorem placedAll_eq_flatMap (depth : Nat) (ds : List Derivation) :
    placedAll depth ds = ds.flatMap (placed depth) := by
  induction ds with
  | nil => rfl
  | cons d ds ih => rw [placedAll, ih, List.flatMap_cons]

theorem linesAll_eq_flatMap (depth : Nat) (ds : List Derivation) :
    linesAll depth ds = ds.flatMap (lines depth) := by
  induction ds with
  | nil => rfl
  | cons d ds ih => rw [linesAll, ih, List.flatMap_cons]

theorem placed_eq (depth : Nat) (d : Derivation) :
    d.placed depth = (depth, d) :: d.premises.flatMap (placed (depth + 1)) := by
  obtain ⟨judgment, rule, premises⟩ := d
  rw [placed, placedAll_eq_flatMap]

theorem lines_eq (depth : Nat) (d : Derivation) :
    d.lines depth = (indent depth ++ d.headline) ::
      (d.premises.flatMap (lines (depth + 1)) ++ closing depth d.premises) := by
  obtain ⟨judgment, rule, premises⟩ := d
  rw [lines, linesAll_eq_flatMap]

theorem nodes_eq (d : Derivation) : d.nodes = d :: d.premises.flatMap nodes := by
  obtain ⟨judgment, rule, premises⟩ := d
  rw [nodes, nodesAll_eq_flatMap]

theorem forall_mem_nodes {P : Derivation → Prop} {d : Derivation} :
    (∀ node ∈ d.nodes, P node) ↔ P d ∧ ∀ p ∈ d.premises, ∀ node ∈ p.nodes, P node := by
  rw [nodes_eq, List.forall_mem_cons, List.forall_mem_flatMap]

/-- The nodes are in the order in which a tree lists them. -/
theorem map_snd_placed (depth : Nat) (d : Derivation) : (d.placed depth).map Prod.snd = d.nodes := by
  induction d using Derivation.induction generalizing depth with
  | node d ih =>
    rw [placed_eq, nodes_eq, List.map_cons, List.map_flatMap]
    exact congrArg (d :: ·) (List.flatMap_congr fun p hp => ih p hp (depth + 1))

theorem placed_add (k depth : Nat) (d : Derivation) :
    d.placed (k + depth) = (d.placed depth).map fun node => (k + node.1, node.2) := by
  induction d using Derivation.induction generalizing depth with
  | node d ih =>
    rw [placed_eq, placed_eq, List.map_cons, List.map_flatMap]
    exact congrArg (_ :: ·) (List.flatMap_congr fun p hp => ih p hp (depth + 1))

theorem closing_add (k depth : Nat) (premises : List Derivation) :
    closing (k + depth) premises = (closing depth premises).map (indent k ++ ·) := by
  cases premises with
  | nil => rfl
  | cons p ps => simp [closing, indent_add]

/-- Further in, every line has more spaces in front. -/
theorem lines_add (k depth : Nat) (d : Derivation) :
    d.lines (k + depth) = (d.lines depth).map (indent k ++ ·) := by
  induction d using Derivation.induction generalizing depth with
  | node d ih =>
    have hpremises : d.premises.flatMap (lines (k + depth + 1)) =
        d.premises.flatMap fun p => (p.lines (depth + 1)).map (indent k ++ ·) :=
      List.flatMap_congr fun p hp => ih p hp (depth + 1)
    rw [lines_eq, lines_eq, List.map_cons, List.map_append, List.map_flatMap, hpremises, closing_add,
      indent_add, List.append_assoc]

mutual

/-- A leaf has one line, and a node with premises has two. -/
theorem length_lines (depth : Nat) : (d : Derivation) → (d.lines depth).length =
    d.nodes.countP (·.premises.isEmpty) + 2 * d.nodes.countP (!·.premises.isEmpty)
  | ⟨judgment, rule, []⟩ => rfl
  | ⟨judgment, rule, p :: ps⟩ => by
    have hpremises := length_linesAll (depth + 1) (p :: ps)
    simp only [lines, closing, nodes, List.length_cons, List.length_append, List.length_nil,
      List.countP_cons, List.isEmpty_cons, Bool.not_false, if_true]
    simp only [Bool.false_eq_true, if_false]
    omega

theorem length_linesAll (depth : Nat) : (ds : List Derivation) → (linesAll depth ds).length =
    (nodesAll ds).countP (·.premises.isEmpty) + 2 * (nodesAll ds).countP (!·.premises.isEmpty)
  | [] => rfl
  | d :: ds => by
    have hfirst := length_lines depth d
    have hlater := length_linesAll depth ds
    simp only [linesAll, nodesAll, List.length_append, List.countP_append]
    omega

end

theorem toList_renderAll (depth : Nat) (ds : List Derivation) :
    (renderAll depth ds).toList = ds.flatMap fun d => (d.render depth).toList := by
  induction ds with
  | nil => rfl
  | cons d ds ih => rw [renderAll, String.toList_append, ih, List.flatMap_cons]

theorem body_eq (depth : Nat) (premises : List Derivation) :
    body depth premises = (premises.flatMap fun p => (p.render (depth + 1)).toList) ++
      (closing depth premises).flatMap (· ++ ['\n']) := by
  cases premises with
  | nil => rfl
  | cons p ps =>
    rw [body, toList_renderAll, toList_line, closing, List.flatMap_singleton, List.append_assoc]
    rfl

/-- The text of a derivation is made of its lines, each with a newline behind it. -/
theorem toList_render_eq_flatMap (depth : Nat) (d : Derivation) :
    (d.render depth).toList = (d.lines depth).flatMap (· ++ ['\n']) := by
  induction d using Derivation.induction generalizing depth with
  | node d ih =>
    have hpremises : (d.premises.flatMap fun p => (p.render (depth + 1)).toList) =
        (d.premises.flatMap (lines (depth + 1))).flatMap (· ++ ['\n']) := by
      rw [List.flatMap_assoc]
      exact List.flatMap_congr fun p hp => ih p hp (depth + 1)
    rw [toList_render, body_eq, hpremises, lines_eq, List.flatMap_cons, List.flatMap_append]
    simp [indent]

/-! ## Trees in which names are identifiers -/

/-- The names in all judgments of a derivation. -/
def names (d : Derivation) : List String := d.nodes.flatMap (·.judgment.names)

theorem names_judgment {d : Derivation} (h : ∀ name ∈ d.names, IsIdentifier name)
    {node : Derivation} (hnode : node ∈ d.nodes) :
    ∀ name ∈ node.judgment.names, IsIdentifier name :=
  List.forall_mem_flatMap.mp h node hnode

end Derivation

/-- A judgment begins with a turnstile, a name or a number. -/
theorem Judgment.opens_text {j : Judgment} (h : ∀ name ∈ j.names, IsIdentifier name) :
    Opens j.text.toList := by
  cases j with
  | primitive op left right result =>
    simp only [text, String.toList_append, List.append_assoc]
    exact (tidy_write left).opens.append _
  | evalTo env expr value =>
    rw [names, List.forall_mem_append] at h
    rw [text, String.toList_append, String.toList_append, List.append_assoc]
    refine Opens.append ?_ _
    rw [toList_goalText, beforeTurnstile]
    cases env with
    | empty => exact opens_cons rfl _
    | extend rest name v =>
      have hopens := (Env.extend rest name v).opens_text (by simp) h.1
      exact (hopens.append _).append _

namespace Derivation

/-- The first line of a derivation without its brace. -/
def title (d : Derivation) : List Char :=
  d.judgment.text.toList ++ " by".toList ++ ' ' :: d.rule.name.toList

theorem headline_eq (d : Derivation) :
    d.headline = d.title ++ ' ' :: (brace d.premises).toList := rfl

/-- The first line of a derivation has no newline inside, and does not begin with a space. -/
structure Headed (d : Derivation) : Prop where
  newline_not_mem : '\n' ∉ d.headline
  opens : Opens d.judgment.text.toList

theorem Headed.opens_title {d : Derivation} (h : d.Headed) : Opens d.title :=
  (h.opens.append _).append _

theorem headed_of_names {d : Derivation} (h : ∀ name ∈ d.names, IsIdentifier name) :
    ∀ node ∈ d.nodes, node.Headed := by
  intro node hnode
  have hnames := names_judgment h hnode
  exact ⟨newline_not_mem_headline hnames, Judgment.opens_text hnames⟩

theorem newline_not_mem_indent (depth : Nat) : '\n' ∉ indent depth := by
  simp [indent]

theorem newline_not_mem_closing (depth : Nat) (premises : List Derivation) :
    ∀ l ∈ closing depth premises, '\n' ∉ l := by
  cases premises with
  | nil => simp [closing]
  | cons p ps => simp [closing, newline_not_mem_indent]

theorem newline_not_mem_lines {d : Derivation} (h : ∀ node ∈ d.nodes, node.Headed) (depth : Nat) :
    ∀ l ∈ d.lines depth, '\n' ∉ l := by
  induction d using Derivation.induction generalizing depth with
  | node d ih =>
    obtain ⟨hd, hpremises⟩ := forall_mem_nodes.mp h
    rw [lines_eq, List.forall_mem_cons, List.forall_mem_append, List.forall_mem_flatMap]
    refine ⟨?_, fun p hp => ih p hp (hpremises p hp) _, newline_not_mem_closing depth d.premises⟩
    simp [newline_not_mem_indent, hd.newline_not_mem]

theorem splitLines_render {d : Derivation} (h : ∀ node ∈ d.nodes, node.Headed) (depth : Nat) :
    splitLines (d.render depth).toList = (d.lines depth, []) := by
  rw [toList_render_eq_flatMap]
  exact splitLines_flatMap (newline_not_mem_lines h depth)

theorem nested_lines {d : Derivation} (h : ∀ node ∈ d.nodes, node.Headed) (depth : Nat) :
    Nested depth (d.lines depth) := by
  induction d using Derivation.induction generalizing depth with
  | node d ih =>
    obtain ⟨hd, hpremises⟩ := forall_mem_nodes.mp h
    have hinner : Nested (depth + 1) (d.premises.flatMap (lines (depth + 1))) :=
      .flatMap fun p hp => ih p hp (hpremises p hp) _
    rw [lines_eq, headline_eq]
    cases hp : d.premises with
    | nil => exact .leaf hd.opens_title.head?_ne .nil
    | cons p ps =>
      rw [hp] at hinner
      have hne : (p :: ps).flatMap (lines (depth + 1)) ≠ [] := by
        rw [List.flatMap_cons, lines_eq]
        simp
      rw [brace, closing]
      exact .block hd.opens_title.head?_ne hne hinner .nil

theorem isClosing_headline {d : Derivation} (h : d.Headed) (depth : Nat) :
    isClosing (indent depth ++ d.headline) = false := by
  have hopens : Opens d.headline := h.opens_title.append _
  rw [isClosing_indent depth hopens.head?_ne, beq_eq_false_iff_ne]
  intro heq
  have hmem : 'b' ∈ d.headline := by simp [headline]
  rw [heq] at hmem
  exact absurd hmem (by decide)

theorem filter_closing (depth : Nat) (premises : List Derivation) :
    (closing depth premises).filter (!isClosing ·) = [] := by
  cases premises with
  | nil => rfl
  | cons p ps =>
    have hclosing : isClosing (indent depth ++ "\x7d;".toList) = true := by
      rw [isClosing_indent depth (by decide)]
      rfl
    rw [closing, List.filter_cons_of_neg (by rw [hclosing]; simp)]
    rfl

/-- Apart from the closing lines, there is one line for each node, in pre-order. -/
theorem filter_lines {d : Derivation} (h : ∀ node ∈ d.nodes, node.Headed) (depth : Nat) :
    (d.lines depth).filter (!isClosing ·) =
      (d.placed depth).map fun node => indent node.1 ++ node.2.headline := by
  induction d using Derivation.induction generalizing depth with
  | node d ih =>
    obtain ⟨hd, hpremises⟩ := forall_mem_nodes.mp h
    have hinner : d.premises.flatMap (fun p => (p.lines (depth + 1)).filter (!isClosing ·)) =
        d.premises.flatMap fun p =>
          (p.placed (depth + 1)).map fun node => indent node.1 ++ node.2.headline :=
      List.flatMap_congr fun p hp => ih p hp (hpremises p hp) _
    rw [lines_eq, placed_eq, List.filter_cons_of_pos (by simp [isClosing_headline hd]),
      List.filter_append, List.filter_flatMap, hinner, filter_closing, List.append_nil,
      List.map_cons, List.map_flatMap]

/-- A text of a derivation at a depth is laid out as the tree is, where `base` is the text at depth
zero. -/
structure LaidOut (d : Derivation) (k : Nat) (base text : String) : Prop where
  /-- Every line is ended by a newline. -/
  terminated : (splitLines base.toList).2 = [] ∧ (splitLines text.toList).2 = []
  /-- Every line has four spaces more in front for each step of the depth. -/
  shifted : (splitLines text.toList).1 =
    (splitLines base.toList).1.map (List.replicate (4 * k) ' ' ++ ·)
  /-- A leaf has one line and a node with premises has two. -/
  count : (splitLines text.toList).1.length =
    d.nodes.countP (·.premises.isEmpty) + 2 * d.nodes.countP (!·.premises.isEmpty)
  /-- Braces match, and the lines between an opening and its closing one are one step deeper. -/
  nested : Nested k (splitLines text.toList).1
  /-- Apart from the closing lines there are the nodes in pre-order, each as deep as in the tree. -/
  preorder : (splitLines text.toList).1.filter (!isClosing ·) =
    (d.placed 0).map fun node => indent (k + node.1) ++ node.2.headline

theorem laidOut_render {d : Derivation} (h : ∀ node ∈ d.nodes, node.Headed) (k : Nat) :
    d.LaidOut k (d.render 0) (d.render k) := by
  have hbase := splitLines_render h 0
  have htext := splitLines_render h k
  have hindent : List.replicate (4 * k) ' ' = indent k := by rw [indent, Nat.mul_comm]
  refine ⟨⟨by rw [hbase], by rw [htext]⟩, ?_, ?_, ?_, ?_⟩
  · rw [hbase, htext, hindent]
    exact lines_add k 0 d
  · rw [htext]
    exact length_lines k d
  · rw [htext]
    exact nested_lines h k
  · have hplaced : d.placed k = (d.placed 0).map fun node => (k + node.1, node.2) := placed_add k 0 d
    rw [htext, filter_lines h, hplaced, List.map_map]
    rfl

end Derivation

end BigStep
