/-
Module: PathQueryIndex.Proofs.Canonical.Nodes
Layer: Proofs
Purpose: The nodes of the colored graph of a pattern. Every edge of the pattern has a node of its own, after
  the points: the source of the edge points to it, and it points to the target of the edge. The classes
  hold the source, the target, the nodes of the edges of each label, and the other points.
Imports: PathQueryIndex.ColoredGraph, PathQueryIndex.Proofs.Pattern.Core
Main exports: Pattern.EdgeAt, Pattern.row_point, Pattern.row_edge, Pattern.labelNodes,
  Pattern.mem_labelNodes, Pattern.classes_eq, Pattern.mem_classes, Pattern.ne_nil_of_mem_classes
-/
import PathQueryIndex.ColoredGraph
import PathQueryIndex.Proofs.Pattern.Core

namespace PathQueryIndex.Pattern

variable {p : Pattern} {u v w : Nat} {e d : PatternEdge} {l : UInt32}

/-! ### Nodes of edges -/

/-- The edge has the node `w`. -/
def EdgeAt (p : Pattern) (w : Nat) (e : PatternEdge) : Prop :=
  p.vertexCount ≤ w ∧ p.edges.toList[w - p.vertexCount]? = some e

namespace EdgeAt

theorem mem (h : p.EdgeAt w e) : e ∈ p.edges := List.mem_of_getElem? h.2

theorem unique (h : p.EdgeAt w e) (h' : p.EdgeAt w d) : e = d :=
  Option.some.inj (h.2.symm.trans h'.2)

theorem lt (h : p.EdgeAt w e) : w < p.vertexCount + p.edges.toList.length := by
  have hlt := (List.getElem?_eq_some_iff.1 h.2).1
  have hle := h.1
  omega

/-- No edge has two nodes. -/
theorem node_unique (h : p.EdgeAt u e) (h' : p.EdgeAt w e) : u = w := by
  obtain ⟨hu, hgetu⟩ := List.getElem?_eq_some_iff.1 h.2
  obtain ⟨hw, hgetw⟩ := List.getElem?_eq_some_iff.1 h'.2
  have hsame : u - p.vertexCount = w - p.vertexCount :=
    p.edges.nodup_toList.getElem_inj_iff.1 (hgetu.trans hgetw.symm)
  have hleu := h.1
  have hlew := h'.1
  omega

end EdgeAt

theorem exists_edgeAt_of_mem (he : e ∈ p.edges) : ∃ w, p.EdgeAt w e := by
  obtain ⟨i, hi⟩ := List.mem_iff_getElem?.1 (OrderedSet.mem_iff.1 he)
  refine ⟨p.vertexCount + i, Nat.le_add_right .., ?_⟩
  rw [Nat.add_sub_cancel_left]
  exact hi

/-- A node is a point or the node of an edge. -/
theorem exists_edgeAt_of_le (hle : p.vertexCount ≤ w)
    (hlt : w < p.vertexCount + p.edges.toList.length) : ∃ e, p.EdgeAt w e := by
  have hi : w - p.vertexCount < p.edges.toList.length := by omega
  exact ⟨_, hle, List.getElem?_eq_getElem hi⟩

/-- The edges with their nodes. -/
def edgeNodes (p : Pattern) : List (PatternEdge × Nat) := p.edges.toList.zipIdx p.vertexCount

theorem mem_edgeNodes : (e, w) ∈ p.edgeNodes ↔ p.EdgeAt w e := by
  rw [edgeNodes, List.mk_mem_zipIdx_iff_le_and_getElem?_sub]
  exact Iff.rfl

/-- The nodes of some of the edges are all different. -/
theorem nodup_map_filter_edgeNodes (f : PatternEdge × Nat → Bool) :
    ((p.edgeNodes.filter f).map Prod.snd).Nodup := by
  have hsub : ((p.edgeNodes.filter f).map Prod.snd).Sublist (p.edgeNodes.map Prod.snd) :=
    List.filter_sublist.map Prod.snd
  apply hsub.nodup
  rw [edgeNodes, List.zipIdx_map_snd]
  exact List.nodup_range'

/-! ### Rows -/

/-- The nodes of the edges that leave a point. -/
def leaving (p : Pattern) (v : Nat) : List Nat :=
  (p.edgeNodes.filter fun (e, _) => e.source == v).map Prod.snd

theorem mem_leaving : w ∈ p.leaving v ↔ ∃ e, p.EdgeAt w e ∧ e.source = v := by
  unfold leaving
  rw [List.mem_map]
  constructor
  · intro h
    obtain ⟨⟨e, w⟩, hmem, rfl⟩ := h
    obtain ⟨hnode, hsource⟩ := List.mem_filter.1 hmem
    exact ⟨e, mem_edgeNodes.1 hnode, beq_iff_eq.1 hsource⟩
  · intro h
    obtain ⟨e, hnode, hsource⟩ := h
    exact ⟨(e, w), List.mem_filter.2 ⟨mem_edgeNodes.2 hnode, beq_iff_eq.2 hsource⟩, rfl⟩

theorem rows_eq (p : Pattern) : (ColoredGraph.ofPattern p).rows =
    (List.range p.vertexCount).map p.leaving ++ p.edges.toList.map fun e => [e.target] := rfl

theorem nodeCount_eq (p : Pattern) : (ColoredGraph.ofPattern p).nodeCount =
    p.vertexCount + p.edges.toList.length := by
  rw [ColoredGraph.nodeCount, rows_eq, List.length_append, List.length_map, List.length_map,
    List.length_range]

theorem row_point (hv : v < p.vertexCount) :
    (ColoredGraph.ofPattern p).rows.getD v [] = p.leaving v := by
  have hlen : v < ((List.range p.vertexCount).map p.leaving).length := by
    rw [List.length_map, List.length_range]
    exact hv
  rw [rows_eq, List.getD_eq_getElem?_getD, List.getElem?_append_left hlen, List.getElem?_map,
    List.getElem?_range hv]
  rfl

theorem row_edge (h : p.EdgeAt w e) : (ColoredGraph.ofPattern p).rows.getD w [] = [e.target] := by
  have hlen : ((List.range p.vertexCount).map p.leaving).length = p.vertexCount := by
    rw [List.length_map, List.length_range]
  rw [rows_eq, List.getD_eq_getElem?_getD, List.getElem?_append_right (hlen.symm ▸ h.1), hlen,
    List.getElem?_map, h.2]
  rfl

/-- Everything that a node points to is a node. -/
theorem lt_of_mem_row (hp : p.WellFormed) (hv : v < (ColoredGraph.ofPattern p).nodeCount)
    (hu : u ∈ (ColoredGraph.ofPattern p).rows.getD v []) :
    u < (ColoredGraph.ofPattern p).nodeCount := by
  rw [nodeCount_eq] at hv ⊢
  by_cases hpoint : v < p.vertexCount
  · rw [row_point hpoint] at hu
    obtain ⟨e, hnode, _⟩ := mem_leaving.1 hu
    exact hnode.lt
  · obtain ⟨e, hnode⟩ := exists_edgeAt_of_le (Nat.le_of_not_lt hpoint) hv
    rw [row_edge hnode] at hu
    rw [List.mem_singleton.1 hu]
    exact Nat.lt_of_lt_of_le (hp.edge_lt e hnode.mem).2 (Nat.le_add_right ..)

/-! ### Classes -/

/-- The labels of the edges. -/
def edgeLabels (p : Pattern) : OrderedSet UInt32 := .ofList (p.edges.toList.map PatternEdge.label)

/-- The nodes of the edges with a label. -/
def labelNodes (p : Pattern) (l : UInt32) : List Nat :=
  (p.edgeNodes.filter fun (e, _) => e.label == l).map Prod.snd

/-- The points that are neither source nor target. -/
def otherPoints (p : Pattern) : List Nat :=
  (List.range p.vertexCount).filter fun v => v != p.source && v != p.target

theorem mem_edgeLabels : l ∈ p.edgeLabels ↔ ∃ e ∈ p.edges, e.label = l := by
  rw [edgeLabels, OrderedSet.mem_ofList]
  exact List.mem_map

theorem mem_labelNodes : w ∈ p.labelNodes l ↔ ∃ e, p.EdgeAt w e ∧ e.label = l := by
  unfold labelNodes
  rw [List.mem_map]
  constructor
  · intro h
    obtain ⟨⟨e, w⟩, hmem, rfl⟩ := h
    obtain ⟨hnode, hlabel⟩ := List.mem_filter.1 hmem
    exact ⟨e, mem_edgeNodes.1 hnode, beq_iff_eq.1 hlabel⟩
  · intro h
    obtain ⟨e, hnode, hlabel⟩ := h
    exact ⟨(e, w), List.mem_filter.2 ⟨mem_edgeNodes.2 hnode, beq_iff_eq.2 hlabel⟩, rfl⟩

theorem mem_otherPoints : v ∈ p.otherPoints ↔ v < p.vertexCount ∧ v ≠ p.source ∧ v ≠ p.target := by
  rw [otherPoints, List.mem_filter, List.mem_range, Bool.and_eq_true, bne_iff_ne, bne_iff_ne]

theorem labelNodes_ne_nil (hl : l ∈ p.edgeLabels) : p.labelNodes l ≠ [] := by
  obtain ⟨e, he, hlabel⟩ := mem_edgeLabels.1 hl
  obtain ⟨w, hw⟩ := exists_edgeAt_of_mem he
  exact List.ne_nil_of_mem (mem_labelNodes.2 ⟨e, hw, hlabel⟩)

theorem classes_eq (p : Pattern) : (ColoredGraph.ofPattern p).classes =
    [p.source] :: (if p.target = p.source then [] else [[p.target]]) ++
      p.edgeLabels.toList.map p.labelNodes ++
      if p.otherPoints.isEmpty then [] else [p.otherPoints] := by
  have hlabeled : (ColoredGraph.ofPattern p).labeled.map Prod.snd =
      p.edgeLabels.toList.map p.labelNodes := List.map_map
  rw [ColoredGraph.classes, hlabeled]
  rfl

theorem labelCounts_eq (p : Pattern) : (ColoredGraph.ofPattern p).labelCounts =
    p.edgeLabels.toList.map fun l => (l.toNat, (p.labelNodes l).length) := List.map_map

theorem mem_classes {c : List Nat} : c ∈ (ColoredGraph.ofPattern p).classes ↔
    c = [p.source] ∨ (p.target ≠ p.source ∧ c = [p.target]) ∨
      (∃ l ∈ p.edgeLabels, c = p.labelNodes l) ∨ (p.otherPoints ≠ [] ∧ c = p.otherPoints) := by
  have htarget : c ∈ (if p.target = p.source then [] else [[p.target]]) ↔
      p.target ≠ p.source ∧ c = [p.target] := by
    split <;> simp [*]
  have hothers : c ∈ (if p.otherPoints.isEmpty then [] else [p.otherPoints]) ↔
      p.otherPoints ≠ [] ∧ c = p.otherPoints := by
    cases p.otherPoints <;> simp
  rw [classes_eq, List.mem_append, List.mem_append, List.mem_cons, htarget, hothers, List.mem_map,
    or_assoc, or_assoc]
  simp only [eq_comm, OrderedSet.mem_iff]

/-- No class is empty. -/
theorem ne_nil_of_mem_classes (p : Pattern) :
    ∀ c ∈ (ColoredGraph.ofPattern p).classes, c ≠ [] := by
  intro c hc
  rcases mem_classes.1 hc with rfl | ⟨_, rfl⟩ | ⟨l, hl, rfl⟩ | ⟨hne, rfl⟩
  · exact List.cons_ne_nil _ _
  · exact List.cons_ne_nil _ _
  · exact labelNodes_ne_nil hl
  · exact hne

end PathQueryIndex.Pattern
