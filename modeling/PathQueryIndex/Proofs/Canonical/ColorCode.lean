/-
Module: PathQueryIndex.Proofs.Canonical.ColorCode
Layer: Proofs
Purpose: Writer and reader of color classes agree. The classes of a pattern that is made from a query stand in a
  fixed order and hold every node once, so their code is read back as these classes, and as long as the nodes
  are numbered in 31 bits its entries fit signed words of 32 bits. The reader accepts no code but those that the
  writer gives for some classes.
Imports: PathQueryIndex.Proofs.Canonical.Existence, PathQueryIndex.Proofs.Labeling.ClassCode,
  Mathlib.Data.List.Permutation
Main exports: Query.Makes, Pattern.Classed, Query.Makes.wellFormed, ColoredGraph.color_code_is_exact
-/
import PathQueryIndex.Proofs.Canonical.Existence
import PathQueryIndex.Proofs.Labeling.ClassCode
import Mathlib.Data.List.Permutation

namespace PathQueryIndex

/-- The patterns that are made from a query: its own one, and images and cores of patterns made from it. -/
inductive Query.Makes (q : Query) : Pattern → Prop where
  | pattern : Makes q (.ofQuery q)
  | image {p : Pattern} (h : Makes q p) (f : Nat → Nat) : Makes q (p.image f)
  | core {p : Pattern} (h : Makes q p) : Makes q p.core

theorem Query.Makes.wellFormed {q : Query} {p : Pattern} (h : q.Makes p) : p.WellFormed := by
  induction h with
  | pattern => exact Pattern.wellFormed_ofQuery q
  | image _ f _ => exact Pattern.wellFormed_image _ f
  | core _ ih => exact Pattern.wellFormed_core ih

/-- The classes of the nodes of a pattern in order: the source alone; the target alone, if it is another point;
    for each label of an edge, labels ascending, the nodes of the edges with that label; and all points that are
    neither source nor target, if there are any. -/
def Pattern.Classed (p : Pattern) (classes : List (List Nat)) : Prop :=
  ∃ (labels : List UInt32) (nodesOf : UInt32 → List Nat) (others : List Nat),
    labels.Pairwise (· < ·) ∧ (∀ l, l ∈ labels ↔ ∃ e ∈ p.edges, e.label = l) ∧
    (∀ l w, w ∈ nodesOf l ↔ ∃ e, p.EdgeAt w e ∧ e.label = l) ∧
    (∀ v, v ∈ others ↔ v < p.vertexCount ∧ v ≠ p.source ∧ v ≠ p.target) ∧
    classes = [p.source] :: (if p.target = p.source then [] else [[p.target]]) ++ labels.map nodesOf ++
      (if others = [] then [] else [others])

namespace ColoredGraph

variable {p : Pattern}

theorem classed_classes (p : Pattern) : p.Classed (ofPattern p).classes := by
  refine ⟨p.edgeLabels.toList, p.labelNodes, p.otherPoints, ?_, ?_, ?_, ?_, ?_⟩
  · apply p.edgeLabels.ascending.imp
    intro a b hab
    exact Std.compare_eq_lt.1 hab
  · intro l
    exact Pattern.mem_edgeLabels
  · intro l w
    exact Pattern.mem_labelNodes
  · intro v
    exact Pattern.mem_otherPoints
  · simp [Pattern.classes_eq]

/-- The entries of a code name the nodes, counted from one. -/
theorem natAbs_le_of_mem_coding (hp : p.WellFormed) {entry : Int} (h : entry ∈ (ofPattern p).coding) :
    entry.natAbs ≤ (ofPattern p).nodeCount := by
  have hperm := natAbs_encodeClasses_perm (Pattern.covers_classes hp)
  have hmem := List.mem_range'_1.1 (hperm.subset (List.mem_map_of_mem h))
  omega

/-- Color classes survive being written and read, and only what can be written is read. The classes of a pattern
    made from a query hold every node once, in the order of source, target, labels and other points; their code is
    read as these very classes, and its entries fit signed words of 32 bits if there are fewer than `2 ^ 31` nodes.
    A list of numbers is read without error if and only if it is, signs aside, a permutation of the numbers from
    one to the number of nodes and does not end in a number that is positive; and then it is the code of the
    classes that are read. -/
theorem color_code_is_exact :
    (∀ (q : Query) (p : Pattern), q.Makes p → (ofPattern p).nodeCount < 2 ^ 31 →
      decodeClasses (ofPattern p).nodeCount (ofPattern p).coding = .ok (ofPattern p).classes ∧
      (∀ entry ∈ (ofPattern p).coding, entry.natAbs < 2 ^ 31) ∧
      Cells.Covers (ofPattern p).classes (ofPattern p).nodeCount ∧ p.Classed (ofPattern p).classes) ∧
    ∀ (count : Nat) (code : List Int),
      ((∃ cells, decodeClasses count code = .ok cells) ↔
        (code.map Int.natAbs).Perm (List.range' 1 count) ∧
          ∀ last, code.getLast? = some last → last < 0) ∧
      ∀ cells, decodeClasses count code = .ok cells → encodeClasses cells = code := by
  constructor
  · intro q p hmade hcount
    have hcovers := Pattern.covers_classes hmade.wellFormed
    refine ⟨decodeClasses_encodeClasses hcovers, fun entry hentry => ?_, hcovers, classed_classes p⟩
    exact Nat.lt_of_le_of_lt (natAbs_le_of_mem_coding hmade.wellFormed hentry) hcount
  · intro count code
    exact ⟨exists_decodeClasses_iff, fun cells h => (decodeClasses_eq_ok_iff.1 h).2⟩

/-- A step and the way back from it between equal ends leave two points and one edge, hence three nodes in three
    classes: source and target are one class, and the other point stands behind the node of the edge. -/
theorem color_code_is_exact_loop :
    let q : Query := .intersect (.concat (.label (.forward 0)) (.label (.backward 0))) .identity
    let g := ofPattern (Pattern.ofQuery q).core
    q.Makes (Pattern.ofQuery q).core ∧ g.nodeCount < 2 ^ 31 ∧ g.coding = [-1, -3, -2] ∧
      decodeClasses 3 [-1, -3, -2] = .ok [[0], [2], [1]] ∧
      encodeClasses [[0], [2], [1]] = [-1, -3, -2] := by
  intro q g
  have hmade : q.Makes (Pattern.ofQuery q).core := .core .pattern
  have hcount : g.nodeCount = 3 := by cbv
  have hcoding : g.coding = [-1, -3, -2] := by cbv
  have hclasses : g.classes = [[0], [2], [1]] := by cbv
  have hsmall : g.nodeCount < 2 ^ 31 := by omega
  rcases color_code_is_exact with ⟨hread, hwritten⟩
  have hdecode := (hread q _ hmade hsmall).1
  change decodeClasses g.nodeCount g.coding = .ok g.classes at hdecode
  rw [hcount, hcoding, hclasses] at hdecode
  exact ⟨hmade, hsmall, hcoding, hdecode, (hwritten 3 _).2 _ hdecode⟩

end ColoredGraph

end PathQueryIndex
