/-
Module: PathQueryIndex.Proofs.Canonical.Fields
Layer: Proofs
Purpose: Numbered graphs of patterns fit the fields of their codes. No node points to all nodes and no label
  is carried by all of them, so in whatever order the nodes are numbered, degrees and counts are as short as
  the name of a node. What is left to check are the limits of the code, which do not depend on the order:
  every order of the nodes of a pattern within the limits has a form.
Imports: PathQueryIndex.Proofs.Canonical.Places, PathQueryIndex.Proofs.Canonical.Code,
  PathQueryIndex.Proofs.Pattern.Least
Main exports: Pattern.WithinLimits, Pattern.WithinLimits.core, Pattern.checkLimits_eq_ok_iff,
  Pattern.fits_partsOfOrder, CanonicalForm.ofParts_eq_ok, CanonicalForm.ofOrder_eq_ok,
  CanonicalForm.exists_ofOrder, Canonicalizer.resolve_eq_ok, Pattern.exists_ofOrder
-/
import PathQueryIndex.Proofs.Canonical.Places
import PathQueryIndex.Proofs.Canonical.Code
import PathQueryIndex.Proofs.Pattern.Least

namespace PathQueryIndex

open CanonicalForm

namespace Pattern

variable {p : Pattern} {order : List Nat} {v : Nat}

/-! ### Degrees and counts -/

/-- No node points to all nodes. -/
theorem length_row_lt (hp : p.WellFormed) (hv : v < (ColoredGraph.ofPattern p).nodeCount) :
    ((ColoredGraph.ofPattern p).rows.getD v []).length < (ColoredGraph.ofPattern p).nodeCount := by
  have hlt := fun u => lt_of_mem_row hp hv (u := u)
  by_cases hpoint : v < p.vertexCount
  · rw [row_point hpoint] at hlt ⊢
    apply length_lt_of_forall_ne (nodup_map_filter_edgeNodes _) hlt (lt_nodeCount hp.source_lt)
    intro w hw heq
    obtain ⟨e, he, _⟩ := mem_leaving.1 hw
    exact absurd (heq ▸ hp.source_lt) (Nat.not_lt.2 he.1)
  · obtain ⟨e, he⟩ := exists_edgeAt_of_le (Nat.le_of_not_lt hpoint) (nodeCount_eq p ▸ hv)
    rw [row_edge he] at hlt ⊢
    apply length_lt_of_forall_ne (List.nodup_singleton _) hlt hv
    intro w hw heq
    rw [← heq, List.mem_singleton.1 hw] at hpoint
    exact hpoint (hp.edge_lt e he.mem).2

/-- No label has all nodes. -/
theorem length_labelNodes_lt (hp : p.WellFormed) (l : UInt32) :
    (p.labelNodes l).length < (ColoredGraph.ofPattern p).nodeCount := by
  apply length_lt_of_forall_ne (nodup_map_filter_edgeNodes _) _ (lt_nodeCount hp.source_lt)
  · intro w hw heq
    obtain ⟨e, he, _⟩ := mem_labelNodes.1 hw
    exact absurd (heq ▸ hp.source_lt) (Nat.not_lt.2 he.1)
  · intro w hw
    obtain ⟨e, he, _⟩ := mem_labelNodes.1 hw
    rw [nodeCount_eq]
    exact he.lt

/-! ### Limits -/

/-- The code has room for the pattern: for its points and edges, for its labels, and for how many labels
    there are. -/
structure WithinLimits (p : Pattern) : Prop where
  nodes : p.vertexCount + p.edgeCount ≤ maxCanonicalNodes
  labelCount : p.edgeLabels.size ≤ maxCanonicalLabel
  label : ∀ e ∈ p.edges, e.label.toNat ≤ maxCanonicalLabel

instance (p : Pattern) : Decidable p.WithinLimits :=
  decidable_of_iff (p.vertexCount + p.edgeCount ≤ maxCanonicalNodes ∧
      p.edgeLabels.size ≤ maxCanonicalLabel ∧
      ∀ e ∈ p.edges.toList, e.label.toNat ≤ maxCanonicalLabel)
    ⟨fun ⟨hnodes, hcount, hlabel⟩ => ⟨hnodes, hcount, hlabel⟩,
      fun h => ⟨h.nodes, h.labelCount, h.label⟩⟩

/-- A subgraph of a pattern within the limits is within the limits. -/
theorem WithinLimits.of_embedding {q : Pattern} {f : Nat → Nat} (h : q.WithinLimits) (hp : p.WellFormed)
    (hf : Embedding p q f) : p.WithinLimits where
  nodes := Nat.le_trans (Nat.add_le_add hf.vertexCount_le (hf.edgeCount_le hp)) h.nodes
  labelCount := by
    have hsub : p.edgeLabels.toList ⊆ q.edgeLabels.toList := by
      intro l hl
      obtain ⟨e, he, rfl⟩ := mem_edgeLabels.1 (OrderedSet.mem_iff.2 hl)
      exact mem_edgeLabels.2 ⟨_, hf.edge e he, rfl⟩
    exact Nat.le_trans (List.subperm_of_subset p.edgeLabels.nodup_toList hsub).length_le h.labelCount
  label := fun e he => h.label (e.map f) (hf.edge e he)

/-- Folding a pattern to its core stays within the limits. -/
theorem WithinLimits.core (h : p.WithinLimits) (hp : p.WellFormed) : p.core.WithinLimits := by
  obtain ⟨f, hf⟩ := exists_embedding_core hp
  exact h.of_embedding (wellFormed_core hp) hf

section Orders

variable (h : order.Perm (List.range (ColoredGraph.ofPattern p).nodeCount))

include h in
theorem length_rows : (partsOfOrder (.ofPattern p) order).sortRows.rows.length =
    (ColoredGraph.ofPattern p).nodeCount := by
  rw [rows_sortRows, Neighbours.renumbered, List.length_map, ColoredGraph.length_order h]

include h in
/-- In every order, the limits of the code are checked of the pattern. -/
theorem checkLimits_eq_ok_iff :
    (partsOfOrder (.ofPattern p) order).sortRows.checkLimits = .ok () ↔ p.WithinLimits := by
  have hlabels : (partsOfOrder (.ofPattern p) order).sortRows.labels =
      p.edgeLabels.toList.map fun l => (l.toNat, (p.labelNodes l).length) := labelCounts_eq p
  have hlabel : (∀ l ∈ p.edgeLabels.toList, l.toNat ≤ maxCanonicalLabel) ↔
      ∀ e ∈ p.edges, e.label.toNat ≤ maxCanonicalLabel := by
    constructor
    · exact fun hall e he => hall _ (OrderedSet.mem_iff.1 (mem_edgeLabels.2 ⟨e, he, rfl⟩))
    · intro hall l hl
      obtain ⟨e, he, rfl⟩ := mem_edgeLabels.1 (OrderedSet.mem_iff.2 hl)
      exact hall e he
  rw [FormParts.checkLimits_eq_ok, length_rows h, nodeCount_eq, hlabels, List.length_map,
    List.forall_mem_map, hlabel]
  constructor
  · exact fun ⟨hnodes, hcount, hall⟩ => ⟨hnodes, hcount, hall⟩
  · exact fun hlimits => ⟨hlimits.nodes, hlimits.labelCount, hlimits.label⟩

include h in
/-- Every number of the numbered graph of a pattern within the limits fits its field. -/
theorem fits_partsOfOrder (hp : p.WellFormed) (hlimits : p.WithinLimits) :
    (partsOfOrder (.ofPattern p) order).sortRows.Fits := by
  obtain ⟨hnodes, hlabels, hlabel⟩ :=
    FormParts.checkLimits_eq_ok.1 ((checkLimits_eq_ok_iff h).2 hlimits)
  have hwidth : ∀ v < (ColoredGraph.ofPattern p).nodeCount,
      v < 2 ^ nodeWidth (partsOfOrder (.ofPattern p) order).sortRows.rows.length := by
    intro v hv
    apply lt_two_pow_nodeWidth
    rw [length_rows h]
    exact hv
  refine ⟨hnodes, hlabels, ?_, ?_, fun l hl => ⟨hlabel l hl, ?_⟩, fun row hrow => ?_⟩
  · exact hwidth _ (ColoredGraph.place_lt h (lt_nodeCount hp.source_lt))
  · exact hwidth _ (ColoredGraph.place_lt h (lt_nodeCount hp.target_lt))
  · have hl : l ∈ (ColoredGraph.ofPattern p).labelCounts := hl
    rw [labelCounts_eq] at hl
    obtain ⟨l, _, rfl⟩ := List.mem_map.1 hl
    exact hwidth _ (length_labelNodes_lt hp l)
  · obtain ⟨i, hi⟩ := List.mem_iff_getElem?.1 hrow
    obtain ⟨v, hv⟩ : ∃ v, order[i]? = some v := by
      have hlt := (List.getElem?_eq_some_iff.1 hi).1
      rw [length_rows h, ← ColoredGraph.length_order h] at hlt
      exact ⟨_, List.getElem?_eq_getElem hlt⟩
    have hvlt := ColoredGraph.lt_of_getElem?_order h hv
    rw [getElem?_rows_sortRows hv] at hi
    rw [← Option.some.inj hi]
    constructor
    · rw [length_sorted, List.length_map]
      exact hwidth _ (length_row_lt hp hvlt)
    · intro w hw
      obtain ⟨u, hu, rfl⟩ := List.mem_map.1 (mem_sorted.1 hw)
      exact hwidth _ (ColoredGraph.place_lt h (lt_of_mem_row hp hvlt hu))

end Orders

end Pattern

/-! ### Forms -/

namespace CanonicalForm

variable {g : ColoredGraph} {order : List Nat} {form : CanonicalForm} {p : FormParts}

theorem ofParts_eq_ok (h : ofParts p = .ok form) : form.toFormParts = p.sortRows := by
  unfold ofParts at h
  split at h
  · cases h
    rfl
  · cases h

/-- A numbered graph has a form if it has a code with its rows sorted. -/
theorem exists_ofParts {code : CoreHash} (h : p.sortRows.encode = .ok code) :
    ∃ form, ofParts p = .ok form ∧ form.code = code := by
  unfold ofParts
  split
  · rename_i code' hcode
    rw [h] at hcode
    cases hcode
    exact ⟨_, rfl, rfl⟩
  · rename_i hcode
    rw [h] at hcode
    cases hcode

/-- A form of an order is the numbered graph with sorted rows. -/
theorem ofOrder_eq_ok (h : ofOrder g order = .ok form) :
    form.toFormParts = (partsOfOrder g order).sortRows := by
  unfold ofOrder at h
  dsimp only at h
  split at h
  · cases h
  · obtain ⟨_, _, h⟩ := bind_eq_ok.1 h
    exact ofParts_eq_ok h

/-- There is a form of every order that has each node once, if its numbered graph has a code. -/
theorem exists_ofOrder {code : CoreHash} (hlen : order.length = g.nodeCount)
    (hcheck : checkOrder g.nodeCount [] order = .ok ())
    (hcode : (partsOfOrder g order).sortRows.encode = .ok code) :
    ∃ form, ofOrder g order = .ok form ∧ form.code = code := by
  obtain ⟨form, hform, hcode⟩ := exists_ofParts hcode
  refine ⟨form, ?_, hcode⟩
  unfold ofOrder
  rw [if_neg (not_not_intro hlen), hcheck]
  exact hform

/-- Different nodes that have not been seen pass the check. -/
theorem checkOrder_eq_ok {count : Nat} {seen : List Nat} (hlt : ∀ v ∈ order, v < count)
    (hnodup : order.Nodup) (hnew : ∀ v ∈ order, v ∉ seen) : checkOrder count seen order = .ok () := by
  induction order generalizing seen with
  | nil => rfl
  | cons v vs ih =>
      rw [List.forall_mem_cons] at hlt hnew
      rw [List.nodup_cons] at hnodup
      rw [checkOrder, if_neg (Nat.not_le.2 hlt.1), if_neg hnew.1]
      apply ih hlt.2 hnodup.2
      intro w hw hmem
      rcases List.mem_cons.1 hmem with rfl | hmem
      · exact hnodup.1 hw
      · exact hnew.2 w hw hmem

end CanonicalForm

/-- A form comes from a canonical order, which the labeler that searches for it gives. -/
theorem Canonicalizer.resolve_eq_ok {workers number : Nat} {timeout : Option Nat} {g : ColoredGraph}
    {form : CanonicalForm} (h : (ofWorkers workers timeout).resolve number g = .ok form) :
    ∃ order, canonicalOrder (request g) false = .ok order ∧
      form.toFormParts = (partsOfOrder g order).sortRows := by
  obtain ⟨order, horder, hform⟩ := bind_eq_ok.1 h
  exact ⟨order, horder, CanonicalForm.ofOrder_eq_ok hform⟩

/-- An order of the nodes of a pattern passes the checks of orders. -/
theorem Pattern.ofOrder_eq_ofParts {p : Pattern} {order : List Nat}
    (h : order.Perm (List.range (ColoredGraph.ofPattern p).nodeCount)) :
    ofOrder (.ofPattern p) order = ofParts (partsOfOrder (.ofPattern p) order) := by
  have hcheck : checkOrder (ColoredGraph.ofPattern p).nodeCount [] order = .ok () := by
    apply checkOrder_eq_ok
    · exact fun v hv => List.mem_range.1 (h.subset hv)
    · exact ColoredGraph.nodup_order h
    · exact fun v _ => List.not_mem_nil
  unfold ofOrder
  rw [if_neg (not_not_intro (ColoredGraph.length_order h)), hcheck]
  rfl

/-- Every order of the nodes of a pattern within the limits has a form. -/
theorem Pattern.exists_ofOrder {p : Pattern} {order : List Nat} (hlimits : p.WithinLimits)
    (h : order.Perm (List.range (ColoredGraph.ofPattern p).nodeCount)) :
    ∃ form, ofOrder (.ofPattern p) order = .ok form := by
  obtain ⟨code, hcode⟩ := FormParts.exists_encode ((checkLimits_eq_ok_iff h).2 hlimits)
  obtain ⟨form, hform, _⟩ := CanonicalForm.exists_ofParts hcode
  exact ⟨form, (ofOrder_eq_ofParts h).trans hform⟩

end PathQueryIndex
