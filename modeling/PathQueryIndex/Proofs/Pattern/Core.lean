/-
Module: PathQueryIndex.Proofs.Pattern.Core
Layer: Proofs
Purpose: The core of a pattern. Folding stops at a pattern that maps to the folded one and back, and whose
  maps to itself all hit every point. Two such patterns that map into each other are the same up to
  the numbers of their points: a map there and back hits every point, so it takes no value twice, and
  neither way can lose a point or an edge.
Imports: PathQueryIndex.Pattern.Core, PathQueryIndex.Proofs.Pattern.Search, PathQueryIndex.Proofs.Renaming
Main exports: Pattern.Equivalent, Pattern.Rigid, Pattern.vertexCount_image_lt, Pattern.equivalent_core,
  Pattern.wellFormed_core, Pattern.rigid_core, Pattern.Embedding, Pattern.Rigid.embedding, Isomorphism,
  Pattern.Rigid.isomorphism
-/
import PathQueryIndex.Pattern.Core
import PathQueryIndex.Proofs.Pattern.Search
import PathQueryIndex.Proofs.Renaming

namespace PathQueryIndex

namespace Pattern

variable {p q r : Pattern} {f h : Nat → Nat}

/-- Two patterns map into each other. -/
structure Equivalent (p q : Pattern) : Prop where
  into : ∃ f, Homomorphism p q f
  back : ∃ f, Homomorphism q p f

namespace Equivalent

theorem refl (p : Pattern) : Equivalent p p :=
  ⟨⟨id, .refl p⟩, ⟨id, .refl p⟩⟩

theorem symm (e : Equivalent p q) : Equivalent q p := ⟨e.back, e.into⟩

theorem trans (e : Equivalent p q) (d : Equivalent q r) : Equivalent p r := by
  obtain ⟨⟨f, hf⟩, f', hf'⟩ := e
  obtain ⟨⟨h, hh⟩, h', hh'⟩ := d
  exact ⟨⟨_, hf.comp hh⟩, ⟨_, hh'.comp hf'⟩⟩

end Equivalent

/-- Every map of the pattern to itself hits all points. -/
def Rigid (p : Pattern) : Prop :=
  ∀ f, Homomorphism p p f → ∀ x < p.vertexCount, ∃ v < p.vertexCount, f v = x

/-! ### Folding -/

/-- The image under a map that misses a point has fewer points. -/
theorem vertexCount_image_lt (hp : p.WellFormed) (hf : Homomorphism p p f) {x : Nat}
    (hx : x < p.vertexCount) (hmiss : ∀ v < p.vertexCount, f v ≠ x) :
    (p.image f).vertexCount < p.vertexCount := by
  have hhit : ∀ w ∈ p.source :: p.target :: p.imagePoints f, ∃ v < p.vertexCount, f v = w := by
    intro w hw
    have hcases : w = p.source ∨ w = p.target ∨ w ∈ p.imagePoints f := by
      rcases List.mem_cons.1 hw with h | hw
      · exact .inl h
      · exact .inr (List.mem_cons.1 hw)
    rcases hcases with rfl | rfl | hw
    · exact ⟨_, hp.source_lt, hf.source⟩
    · exact ⟨_, hp.target_lt, hf.target⟩
    · rcases mem_imagePoints.1 hw with rfl | rfl | ⟨e, he, rfl | rfl⟩
      · exact ⟨_, hp.source_lt, hf.source⟩
      · exact ⟨_, hp.target_lt, hf.target⟩
      · exact ⟨_, (hp.edge_lt e he).1, rfl⟩
      · exact ⟨_, (hp.edge_lt e he).2, rfl⟩
  change (p.source :: p.target :: p.imagePoints f).eraseDups.length < _
  apply length_lt_of_forall_ne (nodup_eraseDups _) _ hx
  · intro w hw
    obtain ⟨v, hv, rfl⟩ := hhit w (List.mem_eraseDups.1 hw)
    exact hmiss v hv
  · intro w hw
    obtain ⟨v, hv, rfl⟩ := hhit w (List.mem_eraseDups.1 hw)
    exact hf.inRange v hv

/-- A pattern and its image under a map to itself map into each other. -/
theorem equivalent_image (hp : p.WellFormed) (hf : Homomorphism p p f) :
    Equivalent p (p.image f) :=
  ⟨exists_into_image hp hf, exists_out_of_image hp hf⟩

theorem wellFormed_core (hp : p.WellFormed) : p.core.WellFormed := by
  fun_induction core with
  | case1 p hnone => exact hp
  | case2 p images hfold folded hlt ih => exact ih (wellFormed_image p _)
  | case3 p images hfold folded hge => exact wellFormed_image p _

/-- A pattern and its core map into each other. -/
theorem equivalent_core (hp : p.WellFormed) : Equivalent p p.core := by
  fun_induction core with
  | case1 p hnone => exact .refl p
  | case2 p images hfold folded hlt ih =>
      have hf := (homomorphism_of_folding hp.inBounds hfold).1
      exact (equivalent_image hp hf).trans (ih (wellFormed_image p _))
  | case3 p images hfold folded hge =>
      exact equivalent_image hp (homomorphism_of_folding hp.inBounds hfold).1

/-- Without a folding, every map to itself hits all points. -/
theorem rigid_of_folding_eq_none (hp : p.WellFormed) (h : p.folding? = none) : p.Rigid := by
  intro f hf x hx
  by_contra hmiss
  have hne : ∀ v < p.vertexCount, f v ≠ x := by
    intro v hv heq
    exact hmiss ⟨v, hv, heq⟩
  obtain ⟨images, himages⟩ := exists_folding hp.inBounds hf hx hne
  rw [h] at himages
  cases himages

/-- Nothing is left to fold in a core. -/
theorem rigid_core (hp : p.WellFormed) : p.core.Rigid := by
  fun_induction core with
  | case1 p hnone => exact rigid_of_folding_eq_none hp hnone
  | case2 p images hfold folded hlt ih => exact ih (wellFormed_image p _)
  | case3 p images hfold folded hge =>
      -- A folding misses a point, so its image is always smaller.
      obtain ⟨hf, x, hx, hmiss⟩ := homomorphism_of_folding hp.inBounds hfold
      exact absurd (vertexCount_image_lt hp hf hx hmiss) hge

/-- A pattern whose maps to itself all hit every point is its own core. -/
theorem Rigid.core_eq (hrigid : p.Rigid) (hp : p.InBounds) : p.core = p := by
  unfold core
  split
  · rfl
  · rename_i images hfold
    obtain ⟨hf, x, hx, hmiss⟩ := homomorphism_of_folding hp hfold
    obtain ⟨v, hv, heq⟩ := hrigid _ hf x hx
    exact absurd heq (hmiss v hv)

/-! ### Subgraphs -/

/-- `p` is a subgraph of `q` with the source and the target of `q`, up to the numbers of its points. -/
structure Embedding (p q : Pattern) (f : Nat → Nat) : Prop extends Homomorphism p q f where
  inj : ∀ v < p.vertexCount, ∀ w < p.vertexCount, f v = f w → v = w

namespace Embedding

variable (hf : Embedding p q f)

include hf in
theorem vertexCount_le : p.vertexCount ≤ q.vertexCount := by
  have hnodup : ((List.range p.vertexCount).map f).Nodup := by
    apply List.Nodup.map_on _ List.nodup_range
    intro v hv w hw heq
    exact hf.inj v (List.mem_range.1 hv) w (List.mem_range.1 hw) heq
  have hsub : (List.range p.vertexCount).map f ⊆ List.range q.vertexCount := by
    intro w hw
    obtain ⟨v, hv, rfl⟩ := List.mem_map.1 hw
    exact List.mem_range.2 (hf.inRange v (List.mem_range.1 hv))
  have hlen := (List.subperm_of_subset hnodup hsub).length_le
  rw [List.length_map, List.length_range, List.length_range] at hlen
  exact hlen

include hf in
/-- A subgraph keeps edges apart. -/
theorem nodup_map_edges (hp : p.WellFormed) : (p.edges.toList.map (·.map f)).Nodup := by
  apply List.Nodup.map_on _ p.edges.nodup_toList
  intro d hd e he heq
  obtain ⟨hds, hdt⟩ := hp.edge_lt d hd
  obtain ⟨hes, het⟩ := hp.edge_lt e he
  obtain ⟨ds, dt, dl⟩ := d
  obtain ⟨es, et, el⟩ := e
  injection heq with hs ht hl
  obtain rfl : dl = el := hl
  obtain rfl : ds = es := hf.inj ds hds es hes hs
  obtain rfl : dt = et := hf.inj dt hdt et het ht
  rfl

include hf in
/-- The edges of a subgraph are edges of the whole pattern. -/
theorem edges_subperm (hp : p.WellFormed) :
    (p.edges.toList.map (·.map f)).Subperm q.edges.toList := by
  apply List.subperm_of_subset (hf.nodup_map_edges hp)
  intro d hd
  obtain ⟨e, he, rfl⟩ := List.mem_map.1 hd
  exact hf.edge e he

include hf in
theorem edgeCount_le (hp : p.WellFormed) : p.edgeCount ≤ q.edgeCount := by
  have hlen := (hf.edges_subperm hp).length_le
  rw [List.length_map] at hlen
  exact hlen

end Embedding

/-- A rigid pattern is a subgraph of every pattern that it maps to and back from. -/
theorem Rigid.embedding (hp : p.Rigid) (hf : Homomorphism p q f) (hh : Homomorphism q p h) :
    Embedding p q f := by
  have hcomp := hf.comp hh
  have hren : Renaming p.vertexCount (h ∘ f) := .of_surjective hcomp.inRange (hp _ hcomp)
  refine ⟨hf, fun v hv w hw heq => ?_⟩
  exact hren.inj v hv w hw (congrArg h heq)

end Pattern

/-! ### Rigid patterns that map into each other -/

/-- `f` is a homomorphism, renames the points, and gives every edge of the other pattern. -/
structure Isomorphism (p q : Pattern) (f : Nat → Nat) : Prop extends Homomorphism p q f where
  vertexCount_eq : p.vertexCount = q.vertexCount
  renames : Renaming p.vertexCount f
  edges_perm : (p.edges.toList.map (·.map f)).Perm q.edges.toList

theorem Isomorphism.embedding {p q : Pattern} {f : Nat → Nat} (hf : Isomorphism p q f) :
    Pattern.Embedding p q f :=
  ⟨hf.toHomomorphism, hf.renames.inj⟩

namespace Pattern

variable {p q : Pattern} {f h : Nat → Nat}

/-- Any map between two rigid patterns is an isomorphism, if there is one back. -/
theorem Rigid.isomorphism (hp : p.WellFormed) (hq : q.WellFormed) (hpr : p.Rigid) (hqr : q.Rigid)
    (hf : Homomorphism p q f) (hh : Homomorphism q p h) : Isomorphism p q f := by
  have hinto := hpr.embedding hf hh
  have hback := hqr.embedding hh hf
  have hcount := Nat.le_antisymm hinto.vertexCount_le hback.vertexCount_le
  -- Neither pattern has more edges, since both are subgraphs of the other one.
  have hedges : q.edges.toList.length ≤ (p.edges.toList.map (·.map f)).length := by
    rw [List.length_map]
    exact hback.edgeCount_le hq
  exact { hf with
    vertexCount_eq := hcount
    renames := ⟨fun v hv => hcount ▸ hf.inRange v hv, hinto.inj⟩
    edges_perm := (hinto.edges_subperm hp).perm_of_length_le hedges }

end Pattern

end PathQueryIndex
