/-
Module: PathQueryIndex.Proofs.Canonical.Places
Layer: Proofs
Purpose: What a numbered graph says about the nodes at its places. Since an order lists the classes one after
  the other, the counts of the labels are enough to tell the color of every place. So if two patterns
  have the same numbered graph, sending each node to the node at its place keeps colors and rows, and
  this is a homomorphism; and isomorphic patterns have the same numbered graph.
Imports: PathQueryIndex.Proofs.Canonical.Isomorphic
Main exports: Pattern.Ordered, Pattern.ordered_of_canonicalOrder, Pattern.colorOf, FormParts.colors,
  Pattern.Ordered.map_colorOf, Pattern.homomorphism_of_parts_eq, Pattern.parts_eq_of_isomorphism
-/
import PathQueryIndex.Proofs.Canonical.Isomorphic

namespace PathQueryIndex

open CanonicalForm

/-! ### Orders class by class -/

/-- The order has every node of the colored graph once, and lists the classes one after the other. -/
structure Pattern.Ordered (p : Pattern) (order : List Nat) : Prop where
  perm : order.Perm (List.range (ColoredGraph.ofPattern p).nodeCount)
  exists_parts : ∃ parts : Cells, parts.flatten = order ∧
    List.Forall₂ List.Perm parts (ColoredGraph.ofPattern p).classes

/-- Where the nodes of a graph stand in an order. -/
def ColoredGraph.place (g : ColoredGraph) (order : List Nat) (v : Nat) : Nat :=
  (placesOf g.nodeCount order).getD v 0

namespace ColoredGraph

variable {g : ColoredGraph} {order : List Nat} {v i : Nat} (h : order.Perm (List.range g.nodeCount))

include h in
theorem nodup_order : order.Nodup := h.nodup_iff.2 List.nodup_range

include h in
theorem length_order : order.length = g.nodeCount := by
  rw [h.length_eq, List.length_range]

include h in
theorem lt_of_getElem?_order (hi : order[i]? = some v) : v < g.nodeCount :=
  List.mem_range.1 (h.subset (List.mem_of_getElem? hi))

include h in
theorem place_of_getElem? (hi : order[i]? = some v) : g.place order v = i :=
  getD_placesOf (nodup_order h) hi (lt_of_getElem?_order h hi)

include h in
/-- The node stands at its place. -/
theorem getElem?_place (hv : v < g.nodeCount) : order[g.place order v]? = some v := by
  obtain ⟨i, hi⟩ := List.mem_iff_getElem?.1 (h.symm.subset (List.mem_range.2 hv))
  rw [place_of_getElem? h hi]
  exact hi

include h in
theorem place_lt (hv : v < g.nodeCount) : g.place order v < g.nodeCount := by
  have hlt := (List.getElem?_eq_some_iff.1 (getElem?_place h hv)).1
  rw [length_order h] at hlt
  exact hlt

end ColoredGraph

namespace Pattern

variable {p q : Pattern} {order order' : List Nat} {v w i : Nat} {e : PatternEdge}

/-- The classes that a labeler reads are the classes that were sent to it. -/
theorem decodeClasses_of_canonicalOrder
    (h : canonicalOrder (Canonicalizer.request (.ofPattern p)) false = .ok order) :
    decodeClasses (ColoredGraph.ofPattern p).nodeCount (ColoredGraph.ofPattern p).coding =
      .ok (ColoredGraph.ofPattern p).classes := by
  obtain ⟨cells, _, hcells, _, _⟩ := canonicalOrder_eq_ok h
  have hsame := eq_of_decodeClasses_encodeClasses p.ne_nil_of_mem_classes hcells
  rw [← hsame]
  exact hcells

/-- A canonical order lists the classes one after the other. -/
theorem ordered_of_canonicalOrder
    (h : canonicalOrder (Canonicalizer.request (.ofPattern p)) false = .ok order) :
    p.Ordered order := by
  obtain ⟨hperm, hparts⟩ := exists_parts_of_canonicalOrder h (decodeClasses_of_canonicalOrder h)
  exact ⟨hperm, hparts⟩

namespace Ordered

variable (h : p.Ordered order)

include h in
theorem length_eq : order.length = (ColoredGraph.ofPattern p).nodeCount :=
  ColoredGraph.length_order h.perm

include h in
theorem lt_of_getElem? (hi : order[i]? = some v) : v < (ColoredGraph.ofPattern p).nodeCount :=
  ColoredGraph.lt_of_getElem?_order h.perm hi

include h in
theorem place_eq (hi : order[i]? = some v) : (ColoredGraph.ofPattern p).place order v = i :=
  ColoredGraph.place_of_getElem? h.perm hi

include h in
theorem getElem?_place (hv : v < (ColoredGraph.ofPattern p).nodeCount) :
    order[(ColoredGraph.ofPattern p).place order v]? = some v :=
  ColoredGraph.getElem?_place h.perm hv

include h in
/-- The source stands first, and the target next if it is another point. -/
theorem exists_order_eq : ∃ rest,
    order = p.source :: (if p.target = p.source then [] else [p.target]) ++ rest := by
  obtain ⟨parts, hflat, hparts⟩ := h.exists_parts
  rw [classes_eq, List.append_assoc] at hparts
  cases hparts with
  | cons hsource hrest =>
      rw [List.flatten_cons, List.perm_singleton.1 hsource] at hflat
      split at hrest
      · rename_i hloop
        rw [if_pos hloop]
        exact ⟨_, hflat.symm⟩
      · rename_i hloop
        rw [if_neg hloop]
        cases hrest with
        | cons htarget hrest =>
            rw [List.flatten_cons, List.perm_singleton.1 htarget] at hflat
            exact ⟨_, hflat.symm⟩

include h in
theorem place_source : (ColoredGraph.ofPattern p).place order p.source = 0 := by
  obtain ⟨rest, horder⟩ := h.exists_order_eq
  apply h.place_eq
  rw [horder]
  rfl

include h in
theorem place_target :
    (ColoredGraph.ofPattern p).place order p.target = if p.target = p.source then 0 else 1 := by
  obtain ⟨rest, horder⟩ := h.exists_order_eq
  apply h.place_eq
  rw [horder]
  split
  · rename_i hloop
    rw [hloop]
    rfl
  · rfl

end Ordered

end Pattern

/-! ### Colors of places -/

/-- What tells the nodes of a colored graph apart. -/
inductive NodeColor where
  | source
  | target
  | label (l : Nat)
  | other
deriving DecidableEq

/-- The colors of the places of a numbered graph, as far as source, target and labels tell. -/
def FormParts.frontColors (parts : FormParts) : List NodeColor :=
  .source :: (if parts.target = parts.source then [] else [.target]) ++
    parts.labels.flatMap fun (l, count) => List.replicate count (.label l)

/-- The colors of all places of a numbered graph. -/
def FormParts.colors (parts : FormParts) : List NodeColor :=
  parts.frontColors ++
    List.replicate (parts.rows.length - parts.frontColors.length) .other

namespace Pattern

variable {p q : Pattern} {order order' : List Nat} {v w i : Nat} {e : PatternEdge}

/-- The color of a node. -/
def colorOf (p : Pattern) (v : Nat) : NodeColor :=
  if v = p.source then .source
  else if v = p.target then .target
  else if v < p.vertexCount then .other
  else .label ((p.edges.toList[v - p.vertexCount]?).elim 0 fun e => e.label.toNat)

theorem colorOf_source (p : Pattern) : p.colorOf p.source = .source := if_pos rfl

theorem colorOf_target (h : p.target ≠ p.source) : p.colorOf p.target = .target := by
  rw [colorOf, if_neg h, if_pos rfl]

theorem colorOf_edge (hp : p.WellFormed) (h : p.EdgeAt w e) :
    p.colorOf w = .label e.label.toNat := by
  have hge := h.1
  have hs := hp.source_lt
  have ht := hp.target_lt
  rw [colorOf, if_neg (by omega), if_neg (by omega), if_neg (by omega), h.2]
  rfl

theorem colorOf_other (h : v ∈ p.otherPoints) : p.colorOf v = .other := by
  obtain ⟨hv, hs, ht⟩ := mem_otherPoints.1 h
  rw [colorOf, if_neg hs, if_neg ht, if_pos hv]

theorem eq_source_of_colorOf (h : p.colorOf v = .source) : v = p.source := by
  unfold colorOf at h
  split at h
  · assumption
  · split at h
    · cases h
    · split at h <;> cases h

theorem eq_target_of_colorOf (h : p.colorOf v = .target) : v = p.target := by
  unfold colorOf at h
  split at h
  · cases h
  · split at h
    · assumption
    · split at h <;> cases h

/-- A node that has no label for a color is a point. -/
theorem lt_of_colorOf (hp : p.WellFormed) (h : ∀ l, p.colorOf v ≠ .label l) :
    v < p.vertexCount := by
  apply Nat.lt_of_not_le
  intro hge
  have hs := hp.source_lt
  have ht := hp.target_lt
  apply h
  rw [colorOf, if_neg (by omega), if_neg (by omega), if_neg (Nat.not_lt.2 hge)]

theorem colorOf_ne_label (hv : v < p.vertexCount) (l : Nat) : p.colorOf v ≠ .label l := by
  unfold colorOf
  split
  · exact fun h => nomatch h
  · split
    · exact fun h => nomatch h
    · exact fun h => nomatch h

/-- The classes with their colors. -/
def coloredClasses (p : Pattern) : List (NodeColor × List Nat) :=
  (.source, [p.source]) :: (if p.target = p.source then [] else [(.target, [p.target])]) ++
    p.edgeLabels.toList.map (fun l => (.label l.toNat, p.labelNodes l)) ++
    if p.otherPoints.isEmpty then [] else [(.other, p.otherPoints)]

theorem map_snd_coloredClasses (p : Pattern) :
    p.coloredClasses.map Prod.snd = (ColoredGraph.ofPattern p).classes := by
  rw [classes_eq, coloredClasses, List.map_append, List.map_append, List.map_map, List.map_cons]
  congr 1
  · congr 1
    split <;> rfl
  · split <;> rfl

theorem colorOf_of_mem_coloredClasses (hp : p.WellFormed) {k : NodeColor} {c : List Nat}
    (h : (k, c) ∈ p.coloredClasses) : ∀ v ∈ c, p.colorOf v = k := by
  rcases List.mem_append.1 h with h | h
  · rcases List.mem_append.1 h with h | h
    · rcases List.mem_cons.1 h with heq | h
      · cases heq
        intro v hv
        rw [List.mem_singleton.1 hv]
        exact p.colorOf_source
      · split at h
        · cases h
        · rename_i hloop
          cases List.mem_singleton.1 h
          intro v hv
          rw [List.mem_singleton.1 hv]
          exact colorOf_target hloop
    · obtain ⟨l, _, heq⟩ := List.mem_map.1 h
      cases heq
      intro v hv
      obtain ⟨e, he, rfl⟩ := mem_labelNodes.1 hv
      exact colorOf_edge hp he
  · split at h
    · cases h
    · cases List.mem_singleton.1 h
      exact fun v hv => colorOf_other hv

/-- If each part has the nodes of a class of one color, the colors follow from the lengths. -/
theorem map_flatten_of_colored {color : Nat → NodeColor} {colored : List (NodeColor × List Nat)}
    {parts : List (List Nat)} (hparts : List.Forall₂ List.Perm parts (colored.map Prod.snd))
    (hcolor : ∀ k c, (k, c) ∈ colored → ∀ v ∈ c, color v = k) :
    parts.flatten.map color = colored.flatMap fun (k, c) => List.replicate c.length k := by
  induction colored generalizing parts with
  | nil =>
      cases hparts
      rfl
  | cons kc colored ih =>
      obtain ⟨k, c⟩ := kc
      cases hparts with
      | @cons part _ parts _ hpart hrest =>
          have hfirst : part.map color = List.replicate c.length k := by
            rw [← hpart.length_eq]
            apply List.eq_replicate_iff.2
            refine ⟨List.length_map _, fun x hx => ?_⟩
            obtain ⟨v, hv, rfl⟩ := List.mem_map.1 hx
            exact hcolor k c (List.mem_cons_self ..) v (hpart.subset hv)
          rw [List.flatten_cons, List.map_append, List.flatMap_cons, hfirst,
            ih hrest fun k c hmem => hcolor k c (List.mem_cons_of_mem _ hmem)]

theorem frontColors_eq (h : p.Ordered order) :
    (partsOfOrder (.ofPattern p) order).frontColors =
      .source :: (if p.target = p.source then [] else [.target]) ++
        (p.edgeLabels.toList.map fun l => (NodeColor.label l.toNat, p.labelNodes l)).flatMap
          fun (k, c) => List.replicate c.length k := by
  have hplaces : (ColoredGraph.ofPattern p).place order p.target =
      (ColoredGraph.ofPattern p).place order p.source ↔ p.target = p.source := by
    rw [h.place_target, h.place_source]
    split
    · rename_i hloop
      exact ⟨fun _ => hloop, fun _ => rfl⟩
    · rename_i hloop
      exact ⟨fun hone => (nomatch hone), fun heq => absurd heq hloop⟩
  change NodeColor.source :: (if (ColoredGraph.ofPattern p).place order p.target =
      (ColoredGraph.ofPattern p).place order p.source then [] else [.target]) ++
        (ColoredGraph.ofPattern p).labelCounts.flatMap _ = _
  rw [labelCounts_eq, List.flatMap_map, List.flatMap_map]
  simp only [hplaces]

/-- The colors of the nodes along the order can be read off the numbered graph. -/
theorem Ordered.map_colorOf (hp : p.WellFormed) (h : p.Ordered order) :
    order.map p.colorOf = (partsOfOrder (.ofPattern p) order).colors := by
  obtain ⟨parts, hflat, hparts⟩ := h.exists_parts
  rw [← map_snd_coloredClasses] at hparts
  have hmap := map_flatten_of_colored hparts fun k c => colorOf_of_mem_coloredClasses hp
  have hfront : order.map p.colorOf = (partsOfOrder (.ofPattern p) order).frontColors ++
      List.replicate p.otherPoints.length .other := by
    rw [hflat, coloredClasses, List.flatMap_append, List.flatMap_append] at hmap
    rw [hmap, frontColors_eq h]
    congr 1
    · congr 1
      split <;> rfl
    · split
      · rename_i hempty
        rw [List.isEmpty_iff.1 hempty]
        rfl
      · exact List.append_nil _
  have hlen := congrArg List.length hfront
  rw [List.length_map, List.length_append, List.length_replicate] at hlen
  have hrows : (partsOfOrder (.ofPattern p) order).rows.length = order.length := List.length_map _
  rw [hfront, FormParts.colors, hrows, hlen, Nat.add_sub_cancel_left]

/-! ### The same numbered graph -/

/-- The rows of a numbered graph, sorted, are the graph renumbered by the order. -/
theorem rows_sortRows (g : ColoredGraph) (order : List Nat) :
    (partsOfOrder g order).sortRows.rows =
      (Canonicalizer.request g).neighbours.renumbered order := List.map_map

theorem getElem?_rows_sortRows {g : ColoredGraph} (hi : order[i]? = some v) :
    (partsOfOrder g order).sortRows.rows[i]? =
      some (sorted ((g.rows.getD v []).map (g.place order))) := by
  have hrow : g.rows.toArray.getD v [] = g.rows.getD v [] := by
    rw [Array.getD_eq_getD_getElem?, List.getElem?_toArray, List.getD_eq_getElem?_getD]
  change ((order.map fun v => (g.rows.toArray.getD v []).map (g.place order)).map sorted)[i]? = _
  rw [List.getElem?_map, List.getElem?_map, hi, ← hrow]
  rfl

theorem lt_nodeCount (hv : v < p.vertexCount) : v < (ColoredGraph.ofPattern p).nodeCount := by
  rw [nodeCount_eq]
  exact Nat.lt_of_lt_of_le hv (Nat.le_add_right ..)

/-- Isomorphic patterns have the same numbered graph in their canonical orders. -/
theorem parts_eq_of_isomorphism {f : Nat → Nat} (hp : p.WellFormed) (hf : Isomorphism p q f)
    (h : canonicalOrder (Canonicalizer.request (.ofPattern p)) false = .ok order)
    (h' : canonicalOrder (Canonicalizer.request (.ofPattern q)) false = .ok order') :
    (partsOfOrder (.ofPattern q) order').sortRows =
      (partsOfOrder (.ofPattern p) order).sortRows := by
  have hord := ordered_of_canonicalOrder h
  have hord' := ordered_of_canonicalOrder h'
  have hrows : (partsOfOrder (.ofPattern q) order').sortRows.rows =
      (partsOfOrder (.ofPattern p) order).sortRows.rows := by
    rw [rows_sortRows, rows_sortRows]
    exact (hf.renamed hp).renumbered_eq (decodeClasses_of_canonicalOrder h)
      (decodeClasses_of_canonicalOrder h') (hf.image_classes hp) h h'
  have hsource : (partsOfOrder (.ofPattern q) order').source =
      (partsOfOrder (.ofPattern p) order).source :=
    hord'.place_source.trans hord.place_source.symm
  have htarget : (partsOfOrder (.ofPattern q) order').target =
      (partsOfOrder (.ofPattern p) order).target := by
    refine hord'.place_target.trans (Eq.trans ?_ hord.place_target.symm)
    simp only [hf.target_eq_source_iff hp]
  exact FormParts.mk.injEq .. ▸ ⟨hsource, htarget, hf.labelCounts_eq hp, hrows⟩

/-- The node of the second pattern at the place of a node of the first. -/
def transfer (p : Pattern) (order order' : List Nat) (v : Nat) : Nat :=
  order'.getD ((ColoredGraph.ofPattern p).place order v) 0

section Transfer

variable (hp : p.WellFormed) (hq : q.WellFormed) (h : p.Ordered order) (h' : q.Ordered order')
  (hparts : (partsOfOrder (.ofPattern p) order).sortRows =
    (partsOfOrder (.ofPattern q) order').sortRows)

include h h' hparts in
theorem nodeCount_eq_of_parts_eq :
    (ColoredGraph.ofPattern q).nodeCount = (ColoredGraph.ofPattern p).nodeCount := by
  have hrows := congrArg (fun parts => parts.rows.length) hparts
  dsimp only [FormParts.sortRows, partsOfOrder] at hrows
  rw [List.length_map, List.length_map, List.length_map, List.length_map] at hrows
  rw [← h.length_eq, ← h'.length_eq, hrows]

include h h' hparts in
theorem getElem?_transfer (hv : v < (ColoredGraph.ofPattern p).nodeCount) :
    order'[(ColoredGraph.ofPattern p).place order v]? = some (transfer p order order' v) := by
  have hlt := (List.getElem?_eq_some_iff.1 (h.getElem?_place hv)).1
  have hlen : order.length = order'.length := by
    rw [h.length_eq, h'.length_eq, nodeCount_eq_of_parts_eq h h' hparts]
  rw [transfer, List.getD_eq_getElem?_getD, List.getElem?_eq_getElem (hlen ▸ hlt)]
  rfl

include hp hq h h' hparts in
/-- A node goes to a node of its color. -/
theorem colorOf_transfer (hv : v < (ColoredGraph.ofPattern p).nodeCount) :
    q.colorOf (transfer p order order' v) = p.colorOf v := by
  have hcolors : order.map p.colorOf = order'.map q.colorOf := by
    have hsorted := congrArg FormParts.colors hparts
    have hkeep : ∀ parts : FormParts, parts.sortRows.colors = parts.colors := by
      intro parts
      unfold FormParts.colors FormParts.sortRows
      rw [List.length_map]
      rfl
    rw [h.map_colorOf hp, h'.map_colorOf hq, ← hkeep, hsorted, hkeep]
  have hplace : (order.map p.colorOf)[(ColoredGraph.ofPattern p).place order v]? =
      (order'.map q.colorOf)[(ColoredGraph.ofPattern p).place order v]? := by
    rw [hcolors]
  rw [List.getElem?_map, List.getElem?_map, h.getElem?_place hv, getElem?_transfer h h' hparts hv]
    at hplace
  exact (Option.some.inj hplace).symm

include h h' hparts in
theorem transfer_lt (hv : v < (ColoredGraph.ofPattern p).nodeCount) :
    transfer p order order' v < (ColoredGraph.ofPattern q).nodeCount :=
  h'.lt_of_getElem? (getElem?_transfer h h' hparts hv)

include hp hq h h' hparts in
/-- What a node points to goes to what the image of the node points to. -/
theorem mem_row_transfer {u : Nat} (hv : v < (ColoredGraph.ofPattern p).nodeCount)
    (hu : u ∈ (ColoredGraph.ofPattern p).rows.getD v []) :
    transfer p order order' u ∈
      (ColoredGraph.ofPattern q).rows.getD (transfer p order order' v) [] := by
  have hrow := getElem?_rows_sortRows (g := .ofPattern p) (h.getElem?_place hv)
  rw [hparts, getElem?_rows_sortRows (getElem?_transfer h h' hparts hv)] at hrow
  have hrow := Option.some.inj hrow
  have hmem : (ColoredGraph.ofPattern p).place order u ∈
      ((ColoredGraph.ofPattern p).rows.getD v []).map ((ColoredGraph.ofPattern p).place order) :=
    List.mem_map_of_mem hu
  have hmem := mem_sorted.1 (hrow ▸ mem_sorted.2 hmem)
  obtain ⟨w, hw, hplace⟩ := List.mem_map.1 hmem
  have hwlt := lt_of_mem_row hq (transfer_lt h h' hparts hv) hw
  -- The node that stands at the place of `u` is the image of `u`.
  have hget := h'.getElem?_place hwlt
  rw [hplace, getElem?_transfer h h' hparts (lt_of_mem_row hp hv hu)] at hget
  rw [Option.some.inj hget]
  exact hw

include hp hq h h' hparts in
theorem transfer_source : transfer p order order' p.source = q.source := by
  apply eq_source_of_colorOf
  rw [colorOf_transfer hp hq h h' hparts (lt_nodeCount hp.source_lt), colorOf_source]

include h' hparts in
/-- Numbered graphs say whether source and target are the same. -/
theorem target_eq_source_of_parts_eq (hloop : p.target = p.source) : q.target = q.source := by
  have hsource : (ColoredGraph.ofPattern p).place order p.source =
      (ColoredGraph.ofPattern q).place order' q.source := congrArg FormParts.source hparts
  have htarget : (ColoredGraph.ofPattern p).place order p.target =
      (ColoredGraph.ofPattern q).place order' q.target := congrArg FormParts.target hparts
  rw [hloop, hsource, h'.place_source, h'.place_target] at htarget
  split at htarget
  · assumption
  · cases htarget

include hp hq h h' hparts in
theorem transfer_target : transfer p order order' p.target = q.target := by
  by_cases hloop : p.target = p.source
  · rw [hloop, target_eq_source_of_parts_eq h' hparts hloop]
    exact transfer_source hp hq h h' hparts
  · apply eq_target_of_colorOf
    rw [colorOf_transfer hp hq h h' hparts (lt_nodeCount hp.target_lt), colorOf_target hloop]

include hp hq h h' hparts in
/-- Points go to points, because their colors are not labels. -/
theorem transfer_lt_vertexCount (hv : v < p.vertexCount) :
    transfer p order order' v < q.vertexCount := by
  apply lt_of_colorOf hq
  rw [colorOf_transfer hp hq h h' hparts (lt_nodeCount hv)]
  exact colorOf_ne_label hv

include hp hq h h' hparts in
/-- The node of an edge goes to the node of an edge with the same label. -/
theorem exists_edgeAt_transfer (hw : p.EdgeAt w e) :
    ∃ d, q.EdgeAt (transfer p order order' w) d ∧ d.label = e.label := by
  have hwlt : w < (ColoredGraph.ofPattern p).nodeCount := (nodeCount_eq p).symm ▸ hw.lt
  have hcolor := colorOf_transfer hp hq h h' hparts hwlt
  rw [colorOf_edge hp hw] at hcolor
  have hge : q.vertexCount ≤ transfer p order order' w := by
    apply Nat.le_of_not_lt
    intro hlt
    exact colorOf_ne_label hlt _ hcolor
  obtain ⟨d, hd⟩ := exists_edgeAt_of_le hge (nodeCount_eq q ▸ transfer_lt h h' hparts hwlt)
  rw [colorOf_edge hq hd] at hcolor
  exact ⟨d, hd, UInt32.toNat_inj.1 (NodeColor.label.inj hcolor)⟩

include hp hq h h' hparts in
/-- The node of an edge goes to the node of the image of the edge. -/
theorem edgeAt_transfer (hw : p.EdgeAt w e) :
    q.EdgeAt (transfer p order order' w) (e.map (transfer p order order')) := by
  obtain ⟨hs, ht⟩ := hp.edge_lt e hw.mem
  have hwlt : w < (ColoredGraph.ofPattern p).nodeCount := (nodeCount_eq p).symm ▸ hw.lt
  obtain ⟨d, hd, hlabel⟩ := exists_edgeAt_transfer hp hq h h' hparts hw
  have hsource : d.source = transfer p order order' e.source := by
    have hrow : w ∈ (ColoredGraph.ofPattern p).rows.getD e.source [] := by
      rw [row_point hs]
      exact mem_leaving.2 ⟨e, hw, rfl⟩
    have hmem := mem_row_transfer hp hq h h' hparts (lt_nodeCount hs) hrow
    rw [row_point (transfer_lt_vertexCount hp hq h h' hparts hs)] at hmem
    obtain ⟨d', hd', hsource⟩ := mem_leaving.1 hmem
    rw [hd.unique hd']
    exact hsource
  have htarget : d.target = transfer p order order' e.target := by
    have hrow : e.target ∈ (ColoredGraph.ofPattern p).rows.getD w [] := by
      rw [row_edge hw]
      exact List.mem_singleton_self _
    have hmem := mem_row_transfer hp hq h h' hparts hwlt hrow
    rw [row_edge hd] at hmem
    exact (List.mem_singleton.1 hmem).symm
  have hmap : e.map (transfer p order order') = d := by
    rw [PatternEdge.map, ← hsource, ← htarget, ← hlabel]
  rw [hmap]
  exact hd

include hp hq h h' hparts in
/-- If the numbered graphs are the same, the nodes at the same places give a homomorphism. -/
theorem homomorphism_of_parts_eq : Homomorphism p q (transfer p order order') where
  source := transfer_source hp hq h h' hparts
  target := transfer_target hp hq h h' hparts
  inRange := by
    intro v hv
    exact transfer_lt_vertexCount hp hq h h' hparts hv
  edge := by
    intro e he
    obtain ⟨w, hw⟩ := exists_edgeAt_of_mem he
    exact (edgeAt_transfer hp hq h h' hparts hw).mem

end Transfer

end Pattern

end PathQueryIndex
