/-
Module: PathQueryIndex.Proofs.Pattern.Meaning
Layer: Proofs
Purpose: The pattern of a query means the query: it matches between two vertices if and only if the query
  holds there. Equal points have one representative, and a map that sends equal points to one vertex
  sends a point and its representative to one vertex, so that the fitting maps of the outline are the
  matches of the pattern over the representatives.
Imports: PathQueryIndex.Proofs.Pattern.Classes, PathQueryIndex.Proofs.Pattern.Numbering,
  PathQueryIndex.Proofs.Pattern.Outline
Main exports: Pattern.represent, Pattern.wellFormed_ofQuery, Pattern.matchesAt_ofQuery
-/
import PathQueryIndex.Proofs.Pattern.Classes
import PathQueryIndex.Proofs.Pattern.Numbering
import PathQueryIndex.Proofs.Pattern.Outline

namespace PathQueryIndex

/-! ### The pattern of a query -/

namespace Pattern

variable {g : Graph} {q : Query} {u v : Vertex}

/-- The representative of a point of the outline of a query. -/
def represent (q : Query) (x : Nat) : Nat :=
  (leastEqual (q.outline 0 1 2).fresh (q.outline 0 1 2).equalities).getD x x

/-- The points of the pattern of a query, before they are numbered. -/
def representatives (q : Query) : List Nat :=
  (List.range (q.outline 0 1 2).fresh).map (represent q)

theorem ofQuery_eq (q : Query) : ofQuery q =
    numbered (represent q 0 :: represent q 1 :: representatives q) (represent q 0) (represent q 1)
      ((q.outline 0 1 2).edges.map (·.map (represent q))) := rfl

theorem represents_outline (q : Query) : Represents (q.outline 0 1 2).fresh
    (q.outline 0 1 2).equalities (leastEqual (q.outline 0 1 2).fresh (q.outline 0 1 2).equalities) :=
  represents_leastEqual (Query.lt_fresh_of_mem (by decide) (by decide)).2

theorem represent_eq_of_mem {e : Nat × Nat} (he : e ∈ (q.outline 0 1 2).equalities) :
    represent q e.1 = represent q e.2 :=
  (represents_outline q).eq_of_mem e he

/-- Without equalities every point represents itself. -/
theorem represent_of_equalities_eq_nil (h : (q.outline 0 1 2).equalities = []) (x : Nat) :
    represent q x = x := by
  have hleast (count : Nat) : leastEqual count [] = Array.range count :=
    Forest.roots_discrete count
  rw [represent, h, hleast, Array.getD_eq_getD_getElem?, Array.getElem?_range]
  split
  · rfl
  · rfl

theorem represent_label (l : Label) (x : Nat) : represent (.label l) x = x :=
  represent_of_equalities_eq_nil rfl x

/-- The pattern of a label is its edge. -/
theorem ofQuery_label (l : Label) :
    ofQuery (.label l) = numbered [0, 1, 0, 1] 0 1 [.ofLabel l 0 1] := by
  have hrepresent : represent (.label l) = id := funext (represent_label l)
  rw [ofQuery_eq, representatives, hrepresent]
  rfl

theorem mem_representatives {x : Nat} (hx : x < (q.outline 0 1 2).fresh) :
    represent q x ∈ representatives q :=
  List.mem_map_of_mem (List.mem_range.2 hx)

theorem mem_outline_edges {d : PatternEdge} :
    d ∈ (q.outline 0 1 2).edges.map (·.map (represent q)) ↔
      ∃ e ∈ (q.outline 0 1 2).edges, e.map (represent q) = d := List.mem_map

theorem two_le_fresh (q : Query) : 2 ≤ (q.outline 0 1 2).fresh := Query.le_fresh q 0 1 2

theorem ends_mem_representatives :
    ∀ d ∈ (q.outline 0 1 2).edges.map (·.map (represent q)),
      d.source ∈ representatives q ∧ d.target ∈ representatives q := by
  intro d hd
  obtain ⟨e, he, rfl⟩ := mem_outline_edges.1 hd
  obtain ⟨hsource, htarget⟩ := (Query.lt_fresh_of_mem (by decide) (by decide)).1 e he
  exact ⟨mem_representatives hsource, mem_representatives htarget⟩

theorem wellFormed_ofQuery (q : Query) : (ofQuery q).WellFormed := by
  rw [ofQuery_eq]
  apply wellFormed_numbered ends_mem_representatives
  intro v hv
  obtain ⟨x, hx, rfl⟩ := List.mem_map.1 hv
  have hequal : ∀ e ∈ (q.outline 0 1 2).equalities, represent q e.1 = represent q e.2 :=
    fun e he => represent_eq_of_mem he
  obtain ⟨_, hfresh⟩ := Query.touches_of_lt_fresh hequal
  rcases Nat.lt_or_ge x 2 with hlt | hge
  · rcases Nat.le_one_iff_eq_zero_or_eq_one.1 (Nat.le_of_lt_succ hlt) with rfl | rfl
    · exact .inl rfl
    · exact .inr (.inl rfl)
  · rcases hfresh x hge (List.mem_range.1 hx) with heq | heq | ⟨e, he, hends⟩
    · exact .inl heq
    · exact .inr (.inl heq)
    · exact .inr (.inr ⟨_, mem_outline_edges.2 ⟨e, he, rfl⟩, hends⟩)

theorem inBounds_ofQuery (q : Query) : (ofQuery q).InBounds := (wellFormed_ofQuery q).inBounds

/-- A match of the pattern maps every point where it maps its representative, and this map fits. -/
theorem holds_of_matchesAt_ofQuery (h : (ofQuery q).MatchesAt g u v) : q.Holds g u v := by
  obtain ⟨m, hm⟩ := h
  rw [ofQuery_eq] at hm
  let points := represent q 0 :: represent q 1 :: representatives q
  let f : Nat → Vertex := fun x => m (numberOf points (represent q x))
  have hfits : (q.outline 0 1 2).Fits g f := by
    constructor
    · intro e he
      exact hm.edge_of_numbered _ (mem_outline_edges.2 ⟨e, he, rfl⟩)
    · intro e he
      exact congrArg (fun y => m (numberOf points y)) (represent_eq_of_mem he)
  have hholds := Query.holds_of_fits (by decide) (by decide) hfits fun x hx =>
    hm.inRange _ (numberOf_lt (List.mem_cons_of_mem _ (List.mem_cons_of_mem _
      (mem_representatives hx))))
  have hsource : f 0 = u := hm.source
  have htarget : f 1 = v := hm.target
  rw [hsource, htarget] at hholds
  exact hholds

/-- The points of the outline can be mapped from source and target on, so that the map fits. -/
theorem exists_fits_outline (h : q.Holds g u v) : ∃ f : Nat → Vertex, f 0 = u ∧ f 1 = v ∧
    (∀ x < (q.outline 0 1 2).fresh, f x < g.vertexCount) ∧ (q.outline 0 1 2).Fits g f := by
  obtain ⟨hu, hv⟩ := Query.lt_vertexCount_of_holds h
  obtain ⟨f, hkeep, hrange, hfits⟩ :=
    Query.exists_fits (f := fun x => if x = 0 then u else v) (n := 2) (s := 0) (t := 1)
      (by decide) (by decide) h
  refine ⟨f, hkeep 0 (by decide), hkeep 1 (by decide), fun x hx => ?_, hfits⟩
  rcases Nat.lt_or_ge x 2 with hx₂ | hx₂
  · rw [hkeep x hx₂]
    split
    · exact hu
    · exact hv
  · exact hrange x hx₂ hx

/-- A map that fits matches the pattern over the representatives. -/
theorem matchesAt_ofQuery_of_holds (h : q.Holds g u v) : (ofQuery q).MatchesAt g u v := by
  obtain ⟨f, hsource, htarget, hlt, hfits⟩ := exists_fits_outline h
  have hone : 1 < (q.outline 0 1 2).fresh := two_le_fresh q
  have hzero : 0 < (q.outline 0 1 2).fresh := Nat.lt_trans Nat.zero_lt_one hone
  have hrep : ∀ x < (q.outline 0 1 2).fresh, f (represent q x) = f x :=
    (represents_outline q).respects f hfits.equal
  rw [ofQuery_eq]
  refine ⟨_, Match.out_of_numbered (m := f) (List.mem_cons_self ..)
    (List.mem_cons_of_mem _ (List.mem_cons_self ..)) (fun d hd => ?_) ?_ ?_ (fun d hd => ?_)
    fun y hy => ?_⟩
  · obtain ⟨hs, ht⟩ := ends_mem_representatives d hd
    exact ⟨List.mem_cons_of_mem _ (List.mem_cons_of_mem _ hs),
      List.mem_cons_of_mem _ (List.mem_cons_of_mem _ ht)⟩
  · rw [hrep 0 hzero, hsource]
  · rw [hrep 1 hone, htarget]
  · obtain ⟨e, he, rfl⟩ := mem_outline_edges.1 hd
    obtain ⟨hs, ht⟩ := (Query.lt_fresh_of_mem (by decide) (by decide)).1 e he
    simp only [PatternEdge.map, hrep _ hs, hrep _ ht]
    exact hfits.edge e he
  · have hy : y ∈ representatives q := by
      rcases List.mem_cons.1 hy with rfl | hy
      · exact mem_representatives hzero
      · rcases List.mem_cons.1 hy with rfl | hy
        · exact mem_representatives hone
        · exact hy
    obtain ⟨x, hx, rfl⟩ := List.mem_map.1 hy
    rw [hrep x (List.mem_range.1 hx)]
    exact hlt x (List.mem_range.1 hx)

/-- The pattern of a query matches between two vertices if and only if the query holds there. -/
theorem matchesAt_ofQuery : (ofQuery q).MatchesAt g u v ↔ q.Holds g u v :=
  ⟨holds_of_matchesAt_ofQuery, matchesAt_ofQuery_of_holds⟩

end Pattern

end PathQueryIndex
