/-
Module: PathQueryIndex.Proofs.Canonical.Isomorphic
Layer: Proofs
Purpose: The colored graphs of isomorphic patterns. An isomorphism renames the points, and it renames the
  node of an edge to the node of the image of the edge. With that the rows are renamed, and so are the
  classes, one by one, since the labels and the number of their edges stay the same.
Imports: PathQueryIndex.Proofs.Canonical.Nodes, PathQueryIndex.Proofs.Labeling.Requests,
  PathQueryIndex.Canonicalizer
Main exports: Isomorphism.nodeImage, Isomorphism.renamed, Isomorphism.image_classes,
  Isomorphism.labelCounts_eq
-/
import PathQueryIndex.Proofs.Canonical.Nodes
import PathQueryIndex.Proofs.Labeling.Requests
import PathQueryIndex.Canonicalizer

namespace PathQueryIndex.Isomorphism

variable {p q : Pattern} {f : Nat → Nat} {u v w : Nat} {e d : PatternEdge} {l : UInt32}

/-! ### The image of a node -/

/-- The image of a point, and the node of the image of an edge. -/
def nodeImage (p q : Pattern) (f : Nat → Nat) (w : Nat) : Nat :=
  if w < p.vertexCount then f w
  else q.vertexCount +
    q.edges.toList.idxOf ((p.edges.toList.getD (w - p.vertexCount) default).map f)

theorem nodeImage_point (hv : v < p.vertexCount) : nodeImage p q f v = f v := if_pos hv

theorem edgeAt_nodeImage (hf : Homomorphism p q f) (h : p.EdgeAt w e) :
    q.EdgeAt (nodeImage p q f w) (e.map f) := by
  have hmem : e.map f ∈ q.edges.toList := hf.edge e h.mem
  rw [nodeImage, if_neg (Nat.not_lt.2 h.1), List.getD_eq_getElem?_getD, h.2]
  refine ⟨Nat.le_add_right .., ?_⟩
  rw [Nat.add_sub_cancel_left]
  exact List.getElem?_eq_some_iff.2 ⟨List.idxOf_lt_length_of_mem hmem, List.getElem_idxOf _⟩

variable (hp : p.WellFormed) (hf : Isomorphism p q f)

include hf in
theorem length_edges_eq : q.edges.toList.length = p.edges.toList.length := by
  have hlen := hf.edges_perm.length_eq
  rw [List.length_map] at hlen
  exact hlen.symm

include hf in
theorem nodeCount_eq : (ColoredGraph.ofPattern q).nodeCount = (ColoredGraph.ofPattern p).nodeCount := by
  rw [Pattern.nodeCount_eq, Pattern.nodeCount_eq, ← hf.vertexCount_eq, hf.length_edges_eq]

include hp hf in
/-- Different edges have different images. -/
theorem edge_inj (he : e ∈ p.edges) (hd : d ∈ p.edges) (h : e.map f = d.map f) : e = d :=
  List.inj_on_of_nodup_map (hf.embedding.nodup_map_edges hp) he hd h

include hf in
/-- Every edge is the image of one. -/
theorem exists_edge (hd : d ∈ q.edges) : ∃ e ∈ p.edges, e.map f = d :=
  List.mem_map.1 (hf.edges_perm.symm.subset hd)

include hp hf in
theorem renaming_nodeImage : Renaming (ColoredGraph.ofPattern p).nodeCount (nodeImage p q f) where
  lt := by
    intro v hv
    by_cases hpoint : v < p.vertexCount
    · rw [nodeImage_point hpoint, Pattern.nodeCount_eq]
      exact Nat.lt_of_lt_of_le (hf.renames.lt v hpoint) (Nat.le_add_right ..)
    · rw [Pattern.nodeCount_eq] at hv
      obtain ⟨e, he⟩ := Pattern.exists_edgeAt_of_le (Nat.le_of_not_lt hpoint) hv
      rw [← hf.nodeCount_eq, Pattern.nodeCount_eq]
      exact (edgeAt_nodeImage hf.toHomomorphism he).lt
  inj := by
    intro v hv w hw heq
    rw [Pattern.nodeCount_eq] at hv hw
    by_cases hvp : v < p.vertexCount
    · have hfv := hf.renames.lt v hvp
      by_cases hwp : w < p.vertexCount
      · rw [nodeImage_point hvp, nodeImage_point hwp] at heq
        exact hf.renames.inj v hvp w hwp heq
      · obtain ⟨d, hd⟩ := Pattern.exists_edgeAt_of_le (Nat.le_of_not_lt hwp) hw
        have hge := (edgeAt_nodeImage hf.toHomomorphism hd).1
        rw [← heq, nodeImage_point hvp, ← hf.vertexCount_eq] at hge
        exact absurd hfv (Nat.not_lt.2 hge)
    · obtain ⟨e, he⟩ := Pattern.exists_edgeAt_of_le (Nat.le_of_not_lt hvp) hv
      have hev := edgeAt_nodeImage hf.toHomomorphism he
      by_cases hwp : w < p.vertexCount
      · have hge := hev.1
        rw [heq, nodeImage_point hwp, ← hf.vertexCount_eq] at hge
        exact absurd (hf.renames.lt w hwp) (Nat.not_lt.2 hge)
      · obtain ⟨d, hd⟩ := Pattern.exists_edgeAt_of_le (Nat.le_of_not_lt hwp) hw
        have hdw := edgeAt_nodeImage hf.toHomomorphism hd
        rw [← heq] at hdw
        obtain rfl : e = d := hf.edge_inj hp he.mem hd.mem (hev.unique hdw)
        exact he.node_unique hd

/-! ### Nodes picked by their edges -/

include hp hf in
/-- Nodes that are picked by a property of their edges are renamed to those that are picked by the
    property of the images. -/
theorem perm_map_nodeImage {nodes nodes' : List Nat} {P Q : PatternEdge → Prop}
    (hnodup : nodes.Nodup) (hnodup' : nodes'.Nodup)
    (hmem : ∀ w, w ∈ nodes ↔ ∃ e, p.EdgeAt w e ∧ P e)
    (hmem' : ∀ w, w ∈ nodes' ↔ ∃ e, q.EdgeAt w e ∧ Q e)
    (hPQ : ∀ e ∈ p.edges, Q (e.map f) ↔ P e) :
    nodes'.Perm (nodes.map (nodeImage p q f)) := by
  have hren := hf.renaming_nodeImage hp
  have hlt : ∀ w ∈ nodes, w < (ColoredGraph.ofPattern p).nodeCount := by
    intro w hw
    obtain ⟨e, he, _⟩ := (hmem w).1 hw
    rw [Pattern.nodeCount_eq]
    exact he.lt
  have hnodupMap : (nodes.map (nodeImage p q f)).Nodup := by
    apply List.Nodup.map_on _ hnodup
    intro v hv w hw heq
    exact hren.inj v (hlt v hv) w (hlt w hw) heq
  apply (List.perm_ext_iff_of_nodup hnodup' hnodupMap).2
  intro x
  rw [List.mem_map]
  constructor
  · intro hx
    obtain ⟨d, hd, hQ⟩ := (hmem' x).1 hx
    obtain ⟨e, he, rfl⟩ := hf.exists_edge hd.mem
    obtain ⟨w, hw⟩ := Pattern.exists_edgeAt_of_mem he
    refine ⟨w, (hmem w).2 ⟨e, hw, (hPQ e he).1 hQ⟩, ?_⟩
    exact (edgeAt_nodeImage hf.toHomomorphism hw).node_unique hd
  · intro hx
    obtain ⟨w, hw, rfl⟩ := hx
    obtain ⟨e, he, hP⟩ := (hmem w).1 hw
    exact (hmem' _).2 ⟨_, edgeAt_nodeImage hf.toHomomorphism he, (hPQ e he.mem).2 hP⟩

include hp hf in
/-- The rows of the colored graphs are renamed. -/
theorem renamed : LabelingRequest.Renamed (nodeImage p q f)
    (Canonicalizer.request (.ofPattern p)) (Canonicalizer.request (.ofPattern q)) where
  length_eq := hf.nodeCount_eq
  renames := hf.renaming_nodeImage hp
  row_lt := fun v hv u hu => Pattern.lt_of_mem_row hp hv hu
  row_perm := fun v hv => by
    change ((ColoredGraph.ofPattern q).rows.getD _ []).Perm
      (((ColoredGraph.ofPattern p).rows.getD v []).map _)
    have hv : v < p.vertexCount + p.edges.toList.length := Pattern.nodeCount_eq p ▸ hv
    by_cases hpoint : v < p.vertexCount
    · have hfv : f v < q.vertexCount := hf.inRange v hpoint
      rw [nodeImage_point hpoint, Pattern.row_point hpoint, Pattern.row_point hfv]
      apply hf.perm_map_nodeImage hp (Pattern.nodup_map_filter_edgeNodes _)
        (Pattern.nodup_map_filter_edgeNodes _) (fun _ => Pattern.mem_leaving)
        (fun _ => Pattern.mem_leaving)
      intro e he
      constructor
      · intro heq
        exact hf.renames.inj _ (hp.edge_lt e he).1 v hpoint heq
      · intro heq
        exact congrArg f heq
    · obtain ⟨e, he⟩ := Pattern.exists_edgeAt_of_le (Nat.le_of_not_lt hpoint) hv
      rw [Pattern.row_edge he, Pattern.row_edge (edgeAt_nodeImage hf.toHomomorphism he),
        List.map_singleton, nodeImage_point (hp.edge_lt e he.mem).2]
      exact .refl _

/-! ### Classes -/

include hf in
theorem edgeLabels_eq : q.edgeLabels = p.edgeLabels := by
  apply OrderedSet.ext_mem
  intro l
  rw [Pattern.mem_edgeLabels, Pattern.mem_edgeLabels]
  constructor
  · intro h
    obtain ⟨d, hd, hlabel⟩ := h
    obtain ⟨e, he, rfl⟩ := hf.exists_edge hd
    exact ⟨e, he, hlabel⟩
  · intro h
    obtain ⟨e, he, hlabel⟩ := h
    exact ⟨e.map f, hf.edge e he, hlabel⟩

include hp hf in
theorem perm_labelNodes : (q.labelNodes l).Perm ((p.labelNodes l).map (nodeImage p q f)) :=
  hf.perm_map_nodeImage hp (Pattern.nodup_map_filter_edgeNodes _)
    (Pattern.nodup_map_filter_edgeNodes _) (fun _ => Pattern.mem_labelNodes)
    (fun _ => Pattern.mem_labelNodes) fun _ _ => Iff.rfl

include hp hf in
theorem target_eq_source_iff : q.target = q.source ↔ p.target = p.source := by
  rw [← hf.source, ← hf.target]
  constructor
  · intro heq
    exact hf.renames.inj _ hp.target_lt _ hp.source_lt heq
  · intro heq
    rw [heq]

include hp hf in
theorem perm_otherPoints : q.otherPoints.Perm (p.otherPoints.map (nodeImage p q f)) := by
  have hmap : p.otherPoints.map (nodeImage p q f) = p.otherPoints.map f := by
    apply List.map_congr_left
    intro v hv
    exact nodeImage_point (Pattern.mem_otherPoints.1 hv).1
  have hnodup : (p.otherPoints.map f).Nodup := by
    apply List.Nodup.map_on _ (List.nodup_range.filter _)
    intro v hv w hw heq
    exact hf.renames.inj v (Pattern.mem_otherPoints.1 hv).1 w (Pattern.mem_otherPoints.1 hw).1 heq
  rw [hmap]
  apply (List.perm_ext_iff_of_nodup (List.nodup_range.filter _) hnodup).2
  intro x
  rw [← Pattern.otherPoints, Pattern.mem_otherPoints, List.mem_map]
  constructor
  · intro h
    obtain ⟨hx, hs, ht⟩ := h
    obtain ⟨v, hv, rfl⟩ := hf.renames.exists_eq (hf.vertexCount_eq ▸ hx)
    refine ⟨v, Pattern.mem_otherPoints.2 ⟨hv, fun heq => hs ?_, fun heq => ht ?_⟩, rfl⟩
    · rw [heq, hf.source]
    · rw [heq, hf.target]
  · intro h
    obtain ⟨v, hv, rfl⟩ := h
    obtain ⟨hv, hs, ht⟩ := Pattern.mem_otherPoints.1 hv
    refine ⟨hf.inRange v hv, fun heq => hs ?_, fun heq => ht ?_⟩
    · exact hf.renames.inj v hv _ hp.source_lt (heq.trans hf.source.symm)
    · exact hf.renames.inj v hv _ hp.target_lt (heq.trans hf.target.symm)

include hp hf in
/-- The classes of the colored graphs are renamed, one by one. -/
theorem image_classes : Cells.Image (nodeImage p q f) (ColoredGraph.ofPattern p).classes
    (ColoredGraph.ofPattern q).classes := by
  have hpoint : ∀ v < p.vertexCount, ∀ {cells others : Cells},
      Cells.Image (nodeImage p q f) cells others →
        Cells.Image (nodeImage p q f) ([v] :: cells) ([f v] :: others) := by
    intro v hv cells others hrest
    apply List.Forall₂.cons _ hrest
    rw [List.map_singleton, nodeImage_point hv]
  rw [Pattern.classes_eq, Pattern.classes_eq, hf.edgeLabels_eq, ← hf.source, ← hf.target]
  apply Cells.Image.append
  · apply Cells.Image.append
    · apply hpoint _ hp.source_lt
      by_cases hloop : p.target = p.source
      · rw [if_pos hloop, if_pos (congrArg f hloop)]
        exact .nil
      · have hloop' : f p.target ≠ f p.source := fun heq =>
          hloop (hf.renames.inj _ hp.target_lt _ hp.source_lt heq)
        rw [if_neg hloop, if_neg hloop']
        exact hpoint _ hp.target_lt .nil
    · apply List.forall₂_map_left_iff.2
      apply List.forall₂_map_right_iff.2
      exact List.forall₂_same.2 fun l _ => hf.perm_labelNodes hp
  · have hothers := hf.perm_otherPoints hp
    have hempty : q.otherPoints.isEmpty = p.otherPoints.isEmpty := by
      rw [hothers.isEmpty_eq, List.isEmpty_map]
    rw [hempty]
    split
    · exact .nil
    · exact .cons hothers .nil

include hp hf in
/-- Each label has as many edges in both patterns. -/
theorem labelCounts_eq :
    (ColoredGraph.ofPattern q).labelCounts = (ColoredGraph.ofPattern p).labelCounts := by
  rw [Pattern.labelCounts_eq, Pattern.labelCounts_eq, hf.edgeLabels_eq]
  apply List.map_congr_left
  intro l _
  rw [(hf.perm_labelNodes hp).length_eq, List.length_map]

end PathQueryIndex.Isomorphism
