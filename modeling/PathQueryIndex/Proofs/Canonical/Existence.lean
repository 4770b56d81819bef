/-
Module: PathQueryIndex.Proofs.Canonical.Existence
Layer: Proofs
Purpose: Which patterns have canonical forms. The classes of the colored graph of a pattern have every node
  once, because they are told apart by their colors. So the pattern makes a request that the labeler answers
  with an order, and the limits of the code are all that can stand in the way of a form. A query is within
  them if it is short enough and its labels are small enough.
Imports: PathQueryIndex.Proofs.Canonical.Fields, PathQueryIndex.Proofs.Labeling.Contract,
  PathQueryIndex.Proofs.Query.Narrow
Main exports: Pattern.covers_classes, Pattern.valid_request, Canonicalizer.exists_resolve_iff,
  exists_canonicalForm_iff, Query.nodes, Pattern.withinLimits_ofQuery
-/
import PathQueryIndex.Proofs.Canonical.Fields
import PathQueryIndex.Proofs.Labeling.Contract
import PathQueryIndex.Proofs.Query.Narrow

namespace PathQueryIndex

namespace Pattern

variable {p : Pattern} {v : Nat} {c : List Nat}

/-! ### Classes have every node once -/

/-- No two classes have the same color. -/
theorem nodup_colors (p : Pattern) : (p.coloredClasses.map Prod.fst).Nodup := by
  have hlabels : (p.edgeLabels.toList.map fun l => NodeColor.label l.toNat).Nodup := by
    apply List.Nodup.map
    · intro a b h
      exact UInt32.toNat_inj.1 (NodeColor.label.inj h)
    · exact p.edgeLabels.nodup_toList
  simp only [coloredClasses, List.map_append, List.map_cons, List.map_map, Function.comp_def]
  split <;> split <;> simp [List.nodup_append, hlabels]

theorem nodup_of_mem_classes (h : c ∈ (ColoredGraph.ofPattern p).classes) : c.Nodup := by
  rcases mem_classes.1 h with rfl | ⟨_, rfl⟩ | ⟨l, _, rfl⟩ | ⟨_, rfl⟩
  · exact List.nodup_singleton _
  · exact List.nodup_singleton _
  · exact nodup_map_filter_edgeNodes _
  · exact List.nodup_range.filter _

theorem nodup_flatten_classes (hp : p.WellFormed) :
    (ColoredGraph.ofPattern p).classes.flatten.Nodup := by
  refine List.nodup_flatten.2 ⟨fun c hc => nodup_of_mem_classes hc, ?_⟩
  rw [← map_snd_coloredClasses, List.pairwise_map]
  refine (List.pairwise_map.1 p.nodup_colors).imp_of_mem fun hx hy hne v hv hv' => ?_
  -- A node in two classes would have two colors.
  apply hne
  rw [← colorOf_of_mem_coloredClasses hp hx v hv, ← colorOf_of_mem_coloredClasses hp hy v hv']

/-- The nodes of the classes are the points and the nodes of the edges. -/
theorem mem_flatten_classes (hp : p.WellFormed) :
    v ∈ (ColoredGraph.ofPattern p).classes.flatten ↔ v < (ColoredGraph.ofPattern p).nodeCount := by
  rw [List.mem_flatten]
  constructor
  · rintro ⟨c, hc, hv⟩
    rcases mem_classes.1 hc with rfl | ⟨_, rfl⟩ | ⟨l, _, rfl⟩ | ⟨_, rfl⟩
    · rw [List.mem_singleton.1 hv]
      exact lt_nodeCount hp.source_lt
    · rw [List.mem_singleton.1 hv]
      exact lt_nodeCount hp.target_lt
    · obtain ⟨e, he, _⟩ := mem_labelNodes.1 hv
      rw [nodeCount_eq]
      exact he.lt
    · exact lt_nodeCount (mem_otherPoints.1 hv).1
  · intro hv
    by_cases hpoint : v < p.vertexCount
    · by_cases hs : v = p.source
      · exact ⟨_, mem_classes.2 (.inl rfl), List.mem_singleton.2 hs⟩
      · by_cases ht : v = p.target
        · have hloop : p.target ≠ p.source := ht ▸ hs
          exact ⟨_, mem_classes.2 (.inr (.inl ⟨hloop, rfl⟩)), List.mem_singleton.2 ht⟩
        · have hother : v ∈ p.otherPoints := mem_otherPoints.2 ⟨hpoint, hs, ht⟩
          exact ⟨_, mem_classes.2 (.inr (.inr (.inr ⟨List.ne_nil_of_mem hother, rfl⟩))), hother⟩
    · obtain ⟨e, he⟩ := exists_edgeAt_of_le (Nat.le_of_not_lt hpoint) (nodeCount_eq p ▸ hv)
      have hlabel : e.label ∈ p.edgeLabels := mem_edgeLabels.2 ⟨e, he.mem, rfl⟩
      exact ⟨_, mem_classes.2 (.inr (.inr (.inl ⟨e.label, hlabel, rfl⟩))),
        mem_labelNodes.2 ⟨e, he, rfl⟩⟩

theorem covers_classes (hp : p.WellFormed) :
    Cells.Covers (ColoredGraph.ofPattern p).classes (ColoredGraph.ofPattern p).nodeCount := by
  refine ⟨(List.perm_ext_iff_of_nodup (nodup_flatten_classes hp) List.nodup_range).2 fun v => ?_,
    p.ne_nil_of_mem_classes⟩
  rw [mem_flatten_classes hp, List.mem_range]

/-! ### Requests and forms -/

/-- The request for the order of a pattern is one that the labeler answers. -/
theorem valid_request (hp : p.WellFormed) :
    (Canonicalizer.request (.ofPattern p)).Valid (ColoredGraph.ofPattern p).classes where
  row_lt := by
    intro row hrow u hu
    obtain ⟨v, hv⟩ := List.mem_iff_getElem?.1 hrow
    have hvlt : v < (ColoredGraph.ofPattern p).nodeCount := (List.getElem?_eq_some_iff.1 hv).1
    have hget : (ColoredGraph.ofPattern p).rows.getD v [] = row := by
      rw [List.getD_eq_getElem?_getD]
      exact congrArg (Option.getD · []) hv
    exact lt_of_mem_row hp hvlt (hget ▸ hu)
  covers := covers_classes hp
  colors_eq := rfl

end Pattern

namespace Canonicalizer

variable {workers number : Nat} {timeout : Option Nat} {p : Pattern}

/-- The searching labeler gives a pattern a form if and only if the pattern is within the limits. -/
theorem exists_resolve_iff (hp : p.WellFormed) :
    (∃ form, (ofWorkers workers timeout).resolve number (.ofPattern p) = .ok form) ↔
      p.WithinLimits := by
  constructor
  · rintro ⟨form, h⟩
    obtain ⟨order, horder, hparts⟩ := resolve_eq_ok h
    obtain ⟨_, hcheck, _⟩ := bind_eq_ok.1 form.encoded
    rw [hparts] at hcheck
    exact (Pattern.checkLimits_eq_ok_iff (Pattern.ordered_of_canonicalOrder horder).perm).1 hcheck
  · intro hlimits
    obtain ⟨order, horder⟩ := (Pattern.valid_request hp).exists_order
    obtain ⟨form, hform⟩ :=
      Pattern.exists_ofOrder hlimits (Pattern.ordered_of_canonicalOrder horder).perm
    exact ⟨form, bind_eq_ok.2 ⟨order, horder, hform⟩⟩

end Canonicalizer

/-- A query has a canonical form if and only if its core is within the limits. -/
theorem exists_canonicalForm_iff (q : Query) :
    (∃ form, canonicalForm q false = .ok form) ↔ (Pattern.ofQuery q).core.WithinLimits := by
  change (∃ form, (Canonicalizer.ofWorkers 1 none).resolve 0 (.ofPattern (Pattern.ofQuery q).core) =
    .ok form) ↔ _
  exact Canonicalizer.exists_resolve_iff (Pattern.wellFormed_core (Pattern.wellFormed_ofQuery q))

/-! ### Short queries -/

namespace Query

variable {q : Query} {s t n : Nat} {count : UInt32}

/-- How many points and edges a query asks for, besides its ends. -/
def nodes : Query → Nat
  | identity => 0
  | label _ => 1
  | concat first second => first.nodes + second.nodes + 1
  | intersect left right => left.nodes + right.nodes

theorem fresh_add_length_edges (q : Query) (s t n : Nat) :
    (q.outline s t n).fresh + (q.outline s t n).edges.length = n + q.nodes := by
  induction q generalizing s t n with
  | identity => rfl
  | label l => rfl
  | concat first second ihf ihs =>
      have hfirst := ihf s n (n + 1)
      have hsecond := ihs n t (first.outline s n (n + 1)).fresh
      simp only [outline, nodes, List.length_append]
      omega
  | intersect left right ihl ihr =>
      have hleft := ihl s t n
      have hright := ihr s t (left.outline s t n).fresh
      simp only [outline, nodes, List.length_append]
      omega

theorem Below.label_lt (h : q.Below count) : ∀ e ∈ (q.outline s t n).edges, e.label < count := by
  induction q generalizing s t n with
  | identity => exact fun e he => nomatch he
  | label l =>
      intro e he
      rw [List.mem_singleton.1 he]
      obtain ⟨id, inverse⟩ := l
      cases inverse with
      | false => exact h
      | true => exact h
  | concat first second ihf ihs =>
      intro e he
      rcases List.mem_append.1 he with he | he
      · exact ihf h.1 e he
      · exact ihs h.2 e he
  | intersect left right ihl ihr =>
      intro e he
      rcases List.mem_append.1 he with he | he
      · exact ihl h.1 e he
      · exact ihr h.2 e he

end Query

namespace Pattern

variable {p : Pattern} {q : Query} {count : UInt32}

/-- Points that are equal are counted once. -/
theorem vertexCount_ofQuery_le (q : Query) : (ofQuery q).vertexCount ≤ (q.outline 0 1 2).fresh := by
  have hsub : (represent q 0 :: represent q 1 :: representatives q).eraseDups ⊆ representatives q := by
    intro v hv
    rw [List.mem_eraseDups, List.mem_cons, List.mem_cons] at hv
    have htwo := two_le_fresh q
    rcases hv with rfl | rfl | hv
    · exact mem_representatives (by omega)
    · exact mem_representatives (by omega)
    · exact hv
  have hlen := (List.subperm_of_subset (nodup_eraseDups _) hsub).length_le
  rw [representatives, List.length_map, List.length_range] at hlen
  exact hlen

theorem label_lt_of_mem_ofQuery (h : q.Below count) : ∀ e ∈ (ofQuery q).edges, e.label < count := by
  intro e he
  rw [ofQuery_eq] at he
  obtain ⟨_, hmapped, rfl⟩ := mem_edges_numbered.1 he
  obtain ⟨d, hd, rfl⟩ := mem_outline_edges.1 hmapped
  exact h.label_lt d hd

theorem edgeCount_ofQuery_le (q : Query) : (ofQuery q).edgeCount ≤ (q.outline 0 1 2).edges.length := by
  have hsize := OrderedSet.size_ofList_le (((q.outline 0 1 2).edges.map (·.map (represent q))).map
    (·.map (numberOf (represent q 0 :: represent q 1 :: representatives q))))
  rw [List.length_map, List.length_map] at hsize
  exact hsize

theorem size_edgeLabels_le (h : ∀ e ∈ p.edges, e.label < count) : p.edgeLabels.size ≤ count.toNat := by
  have hnodup : (p.edgeLabels.toList.map UInt32.toNat).Nodup := by
    apply List.Nodup.map
    · exact fun _ _ => UInt32.toNat_inj.1
    · exact p.edgeLabels.nodup_toList
  have hsub : p.edgeLabels.toList.map UInt32.toNat ⊆ List.range count.toNat := by
    intro l hl
    obtain ⟨id, hid, rfl⟩ := List.mem_map.1 hl
    obtain ⟨e, he, rfl⟩ := mem_edgeLabels.1 (OrderedSet.mem_iff.2 hid)
    exact List.mem_range.2 (UInt32.lt_iff_toNat_lt.1 (h e he))
  have hlen := (List.subperm_of_subset hnodup hsub).length_le
  rw [List.length_map, List.length_range] at hlen
  exact hlen

/-- A short query with small labels is within the limits. -/
theorem withinLimits_ofQuery (hnodes : 2 + q.nodes ≤ maxCanonicalNodes) (hlabels : q.Below count)
    (hcount : count.toNat ≤ maxCanonicalLabel) : (ofQuery q).WithinLimits where
  nodes := by
    calc
      _ ≤ (q.outline 0 1 2).fresh + (q.outline 0 1 2).edges.length :=
        Nat.add_le_add (vertexCount_ofQuery_le q) (edgeCount_ofQuery_le q)
      _ = 2 + q.nodes := Query.fresh_add_length_edges q 0 1 2
      _ ≤ maxCanonicalNodes := hnodes
  labelCount := Nat.le_trans (size_edgeLabels_le (label_lt_of_mem_ofQuery hlabels)) hcount
  label := by
    intro e he
    have hlt := UInt32.lt_iff_toNat_lt.1 (label_lt_of_mem_ofQuery hlabels e he)
    exact Nat.le_of_lt (Nat.lt_of_lt_of_le hlt hcount)

end Pattern

end PathQueryIndex
