/-
Module: PathQueryIndex.Proofs.Pattern.Numbering
Layer: Proofs
Purpose: Numbering the points of a list by their first places. The numbers and the points correspond one to
  one, so a map into or out of a numbered pattern is a map of its points. A numbered pattern has its
  source first, its target next unless it is the source, and no point without an edge but these two.
Imports: PathQueryIndex.Pattern.Match, Mathlib.Data.List.GetD
Main exports: Pattern.InBounds, Pattern.WellFormed, Pattern.numberOf, Pattern.pointOf,
  Pattern.wellFormed_numbered, Homomorphism.into_numbered, Homomorphism.out_of_numbered, Pattern.wellFormed_image,
  Pattern.exists_into_image, Pattern.exists_out_of_image
-/
import PathQueryIndex.Pattern.Match
import Mathlib.Data.List.GetD

namespace PathQueryIndex

/-- What is left once of each element has no element twice. -/
theorem nodup_eraseDups (xs : List Nat) : xs.eraseDups.Nodup := by
  induction h : xs.length using Nat.strongRecOn generalizing xs with
  | ind n ih =>
      cases xs with
      | nil => exact List.nodup_nil
      | cons x xs =>
          rw [List.eraseDups_cons]
          apply List.nodup_cons.2
          constructor
          · intro hx
            have hx := (List.mem_filter.1 (List.mem_eraseDups.1 hx)).2
            rw [beq_self_eq_true] at hx
            cases hx
          · have hlen := List.length_filter_le (fun b => !b == x) xs
            rw [List.length_cons] at h
            exact ih _ (by omega) _ rfl

namespace Pattern

variable {points : List Nat} {v i s t : Nat} {edges : List PatternEdge}

/-- The source, the target and the ends of all edges are points of the pattern. -/
structure InBounds (p : Pattern) : Prop where
  source_lt : p.source < p.vertexCount
  target_lt : p.target < p.vertexCount
  edge_lt : ∀ e ∈ p.edges, e.source < p.vertexCount ∧ e.target < p.vertexCount

/-- The source comes first, then the target if it is another point; every edge is between points, and
    every further point is the end of an edge. -/
structure WellFormed (p : Pattern) : Prop where
  source_eq : p.source = 0
  target_eq : p.target = 0 ∨ p.target = 1
  target_lt : p.target < p.vertexCount
  edge_lt : ∀ e ∈ p.edges, e.source < p.vertexCount ∧ e.target < p.vertexCount
  touched : ∀ v < p.vertexCount, v = p.source ∨ v = p.target ∨
    ∃ e ∈ p.edges, v = e.source ∨ v = e.target

theorem WellFormed.source_lt {p : Pattern} (hp : p.WellFormed) : p.source < p.vertexCount := by
  rw [hp.source_eq]
  exact Nat.lt_of_le_of_lt (Nat.zero_le _) hp.target_lt

theorem WellFormed.inBounds {p : Pattern} (hp : p.WellFormed) : p.InBounds :=
  ⟨hp.source_lt, hp.target_lt, hp.edge_lt⟩

/-- The number of a point of a list. -/
def numberOf (points : List Nat) (v : Nat) : Nat := points.eraseDups.idxOf v

/-- The point with a number. -/
def pointOf (points : List Nat) (i : Nat) : Nat := points.eraseDups.getD i 0

theorem numberOf_lt (h : v ∈ points) : numberOf points v < points.eraseDups.length :=
  List.idxOf_lt_length_of_mem (List.mem_eraseDups.2 h)

theorem pointOf_mem (h : i < points.eraseDups.length) : pointOf points i ∈ points := by
  rw [pointOf, List.getD_eq_getElem _ _ h]
  exact List.mem_eraseDups.1 (List.getElem_mem h)

theorem pointOf_numberOf (h : v ∈ points) : pointOf points (numberOf points v) = v := by
  rw [pointOf, List.getD_eq_getElem _ _ (numberOf_lt h)]
  exact List.getElem_idxOf (numberOf_lt h)

theorem numberOf_pointOf (h : i < points.eraseDups.length) :
    numberOf points (pointOf points i) = i := by
  rw [pointOf, List.getD_eq_getElem _ _ h]
  exact (nodup_eraseDups points).idxOf_getElem i h

theorem numberOf_head : numberOf (s :: points) s = 0 := by
  rw [numberOf, List.eraseDups_cons]
  exact List.idxOf_cons_self

theorem numberOf_second (h : s ≠ t) : numberOf (s :: t :: points) t = 1 := by
  have hkeep : (!t == s) = true := by
    rw [beq_eq_false_iff_ne.2 h.symm]
    rfl
  rw [numberOf, List.eraseDups_cons, List.filter_cons, if_pos hkeep, List.eraseDups_cons,
    List.idxOf_cons, beq_eq_false_iff_ne.2 h, List.idxOf_cons_self]
  rfl

/-- The edges of a numbered pattern are the given ones with their ends numbered. -/
theorem mem_edges_numbered {e : PatternEdge} :
    e ∈ (numbered points s t edges).edges ↔ ∃ d ∈ edges, d.map (numberOf points) = e := by
  change e ∈ OrderedSet.ofList (edges.map fun d => d.map (numberOf points)) ↔ _
  rw [OrderedSet.mem_ofList, List.mem_map]

theorem wellFormed_numbered (he : ∀ e ∈ edges, e.source ∈ points ∧ e.target ∈ points)
    (htouched : ∀ v ∈ points, v = s ∨ v = t ∨ ∃ e ∈ edges, v = e.source ∨ v = e.target) :
    (numbered (s :: t :: points) s t edges).WellFormed where
  source_eq := numberOf_head
  target_eq := by
    change numberOf (s :: t :: points) t = 0 ∨ numberOf (s :: t :: points) t = 1
    by_cases h : s = t
    · subst h
      exact .inl numberOf_head
    · exact .inr (numberOf_second h)
  target_lt := numberOf_lt (List.mem_cons_of_mem _ (List.mem_cons_self ..))
  edge_lt := fun e hmem => by
    obtain ⟨d, hd, rfl⟩ := mem_edges_numbered.1 hmem
    obtain ⟨hsource, htarget⟩ := he d hd
    exact ⟨numberOf_lt (List.mem_cons_of_mem _ (List.mem_cons_of_mem _ hsource)),
      numberOf_lt (List.mem_cons_of_mem _ (List.mem_cons_of_mem _ htarget))⟩
  touched := fun i hi => by
    have hends : ∀ v ∈ s :: t :: points,
        v = s ∨ v = t ∨ ∃ e ∈ edges, v = e.source ∨ v = e.target := by
      intro v hv
      rcases List.mem_cons.1 hv with rfl | hv
      · exact .inl rfl
      · rcases List.mem_cons.1 hv with rfl | hv
        · exact .inr (.inl rfl)
        · exact htouched v hv
    have hnumber : numberOf (s :: t :: points) (pointOf (s :: t :: points) i) = i :=
      numberOf_pointOf hi
    rcases hends _ (pointOf_mem hi) with h | h | ⟨e, he, h⟩
    · exact .inl (by rw [← hnumber, h]; rfl)
    · exact .inr (.inl (by rw [← hnumber, h]; rfl))
    · refine .inr (.inr ⟨_, mem_edges_numbered.2 ⟨e, he, rfl⟩, ?_⟩)
      rcases h with h | h
      · exact .inl (by rw [← hnumber, h]; rfl)
      · exact .inr (by rw [← hnumber, h]; rfl)

end Pattern

/-! ### Maps into and out of numbered patterns -/

open Pattern

variable {points : List Nat} {s t : Nat} {edges : List PatternEdge} {p q : Pattern} {f : Nat → Nat}

namespace Homomorphism

/-- A map to the points of a list, edges to edges, gives a map into the numbered pattern. -/
theorem into_numbered (hs : f p.source = s) (ht : f p.target = t)
    (he : ∀ e ∈ p.edges, e.map f ∈ edges) (hpoints : ∀ v < p.vertexCount, f v ∈ points) :
    Homomorphism p (numbered points s t edges) (numberOf points ∘ f) where
  source := congrArg (numberOf points) hs
  target := congrArg (numberOf points) ht
  edge := fun e hmem => mem_edges_numbered.2 ⟨e.map f, he e hmem, rfl⟩
  inRange := fun v hv => numberOf_lt (hpoints v hv)

/-- A map from the points of a list, edges to edges, gives a map out of the numbered pattern. -/
theorem out_of_numbered (hsmem : s ∈ points) (htmem : t ∈ points)
    (hends : ∀ e ∈ edges, e.source ∈ points ∧ e.target ∈ points) (hs : f s = q.source)
    (ht : f t = q.target) (he : ∀ e ∈ edges, e.map f ∈ q.edges)
    (hpoints : ∀ v ∈ points, f v < q.vertexCount) :
    Homomorphism (numbered points s t edges) q (f ∘ pointOf points) where
  source := by
    change f (pointOf points (numberOf points s)) = q.source
    rw [pointOf_numberOf hsmem, hs]
  target := by
    change f (pointOf points (numberOf points t)) = q.target
    rw [pointOf_numberOf htmem, ht]
  edge := fun e hmem => by
    obtain ⟨d, hd, rfl⟩ := mem_edges_numbered.1 hmem
    obtain ⟨hsource, htarget⟩ := hends d hd
    have hmap : (d.map (numberOf points)).map (f ∘ pointOf points) = d.map f := by
      simp only [PatternEdge.map, Function.comp_apply, pointOf_numberOf hsource,
        pointOf_numberOf htarget]
    rw [hmap]
    exact he d hd
  inRange := fun i hi => hpoints _ (pointOf_mem hi)

end Homomorphism

namespace Pattern.Match

variable {g : Graph} {u v : Vertex} {m : Nat → Vertex}

/-- A map from the points of a list to vertices, edges to edges, gives a match of the numbered pattern. -/
theorem out_of_numbered (hsmem : s ∈ points) (htmem : t ∈ points)
    (hends : ∀ e ∈ edges, e.source ∈ points ∧ e.target ∈ points) (hs : m s = u) (ht : m t = v)
    (he : ∀ e ∈ edges, (⟨m e.source, m e.target, e.label⟩ : Edge) ∈ g.edges)
    (hpoints : ∀ x ∈ points, m x < g.vertexCount) :
    (numbered points s t edges).Match g u v (m ∘ pointOf points) where
  source := by
    change m (pointOf points (numberOf points s)) = u
    rw [pointOf_numberOf hsmem, hs]
  target := by
    change m (pointOf points (numberOf points t)) = v
    rw [pointOf_numberOf htmem, ht]
  edge := fun e hmem => by
    obtain ⟨d, hd, rfl⟩ := mem_edges_numbered.1 hmem
    obtain ⟨hsource, htarget⟩ := hends d hd
    simp only [PatternEdge.map, Function.comp_apply, pointOf_numberOf hsource,
      pointOf_numberOf htarget]
    exact he d hd
  inRange := fun i hi => hpoints _ (pointOf_mem hi)

/-- A match of the numbered pattern gives a vertex for every point of the list. -/
theorem edge_of_numbered (h : (numbered points s t edges).Match g u v m) :
    ∀ e ∈ edges, (⟨m (numberOf points e.source), m (numberOf points e.target), e.label⟩ : Edge) ∈
      g.edges :=
  fun e he => h.edge _ (mem_edges_numbered.2 ⟨e, he, rfl⟩)

end Pattern.Match

/-! ### The image of a pattern under a map to itself -/

namespace Pattern

/-- The points that an image has, its source and target first. -/
def imagePoints (p : Pattern) (f : Nat → Nat) : List Nat :=
  (OrderedSet.ofList (p.source :: p.target :: p.endpoints.map f)).toList

theorem mem_endpoints {v : Nat} :
    v ∈ p.endpoints ↔ ∃ e ∈ p.edges, v = e.source ∨ v = e.target := by
  rw [endpoints, List.mem_flatMap]
  constructor
  · intro h
    obtain ⟨e, he, hv⟩ := h
    rcases List.mem_cons.1 hv with hv | hv
    · exact ⟨e, he, .inl hv⟩
    · exact ⟨e, he, .inr (List.mem_singleton.1 hv)⟩
  · intro h
    obtain ⟨e, he, rfl | rfl⟩ := h
    · exact ⟨e, he, List.mem_cons_self ..⟩
    · exact ⟨e, he, List.mem_cons_of_mem _ (List.mem_cons_self ..)⟩

theorem mem_imagePoints {v : Nat} : v ∈ p.imagePoints f ↔
    v = p.source ∨ v = p.target ∨ ∃ e ∈ p.edges, v = f e.source ∨ v = f e.target := by
  rw [imagePoints, ← OrderedSet.mem_iff, OrderedSet.mem_ofList, List.mem_cons, List.mem_cons,
    List.mem_map]
  have hends : (∃ a ∈ p.endpoints, f a = v) ↔ ∃ e ∈ p.edges, v = f e.source ∨ v = f e.target := by
    constructor
    · intro h
      obtain ⟨a, ha, rfl⟩ := h
      obtain ⟨e, he, rfl | rfl⟩ := mem_endpoints.1 ha
      · exact ⟨e, he, .inl rfl⟩
      · exact ⟨e, he, .inr rfl⟩
    · intro h
      obtain ⟨e, he, rfl | rfl⟩ := h
      · exact ⟨_, mem_endpoints.2 ⟨e, he, .inl rfl⟩, rfl⟩
      · exact ⟨_, mem_endpoints.2 ⟨e, he, .inr rfl⟩, rfl⟩
  rw [hends]

theorem mem_image_edges {d : PatternEdge} :
    d ∈ p.edges.toList.map (·.map f) ↔ ∃ e ∈ p.edges, e.map f = d := List.mem_map

theorem wellFormed_image (p : Pattern) (f : Nat → Nat) : (p.image f).WellFormed := by
  refine wellFormed_numbered (fun d hd => ?_) fun v hv => ?_
  · obtain ⟨e, he, rfl⟩ := mem_image_edges.1 hd
    exact ⟨mem_imagePoints.2 (.inr (.inr ⟨e, he, .inl rfl⟩)),
      mem_imagePoints.2 (.inr (.inr ⟨e, he, .inr rfl⟩))⟩
  · rcases mem_imagePoints.1 hv with h | h | ⟨e, he, h⟩
    · exact .inl h
    · exact .inr (.inl h)
    · exact .inr (.inr ⟨_, mem_image_edges.2 ⟨e, he, rfl⟩, h⟩)

/-- A pattern maps onto its image under a map to itself. -/
theorem exists_into_image (hp : p.WellFormed) (hf : Homomorphism p p f) :
    ∃ h, Homomorphism p (p.image f) h := by
  refine ⟨_, Homomorphism.into_numbered (f := f) hf.source hf.target
    (fun e he => mem_image_edges.2 ⟨e, he, rfl⟩) fun v hv => ?_⟩
  apply List.mem_cons_of_mem
  apply List.mem_cons_of_mem
  apply mem_imagePoints.2
  rcases hp.touched v hv with rfl | rfl | ⟨e, he, rfl | rfl⟩
  · exact .inl hf.source
  · exact .inr (.inl hf.target)
  · exact .inr (.inr ⟨e, he, .inl rfl⟩)
  · exact .inr (.inr ⟨e, he, .inr rfl⟩)

/-- The image lies inside the pattern. -/
theorem exists_out_of_image (hp : p.WellFormed) (hf : Homomorphism p p f) :
    ∃ h, Homomorphism (p.image f) p h := by
  refine ⟨_, Homomorphism.out_of_numbered (f := id) (List.mem_cons_self ..)
    (List.mem_cons_of_mem _ (List.mem_cons_self ..)) (fun d hd => ?_) rfl rfl (fun d hd => ?_)
    fun v hv => ?_⟩
  · obtain ⟨e, he, rfl⟩ := mem_image_edges.1 hd
    constructor
    · apply List.mem_cons_of_mem
      apply List.mem_cons_of_mem
      exact mem_imagePoints.2 (.inr (.inr ⟨e, he, .inl rfl⟩))
    · apply List.mem_cons_of_mem
      apply List.mem_cons_of_mem
      exact mem_imagePoints.2 (.inr (.inr ⟨e, he, .inr rfl⟩))
  · obtain ⟨e, he, rfl⟩ := mem_image_edges.1 hd
    exact hf.edge e he
  · rcases List.mem_cons.1 hv with rfl | hv
    · exact hp.source_lt
    · rcases List.mem_cons.1 hv with rfl | hv
      · exact hp.target_lt
      · rcases mem_imagePoints.1 hv with rfl | rfl | ⟨e, he, rfl | rfl⟩
        · exact hp.source_lt
        · exact hp.target_lt
        · exact hf.inRange _ (hp.edge_lt e he).1
        · exact hf.inRange _ (hp.edge_lt e he).2

end Pattern

end PathQueryIndex
