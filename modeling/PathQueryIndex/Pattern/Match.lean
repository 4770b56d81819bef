/-
Module: PathQueryIndex.Pattern.Match
Layer: Core
Purpose: Matches of patterns in graphs. A match sends source and target to two given vertices and every
  edge to an equally labeled edge. Whatever maps into a matching pattern matches too.
Imports: PathQueryIndex.Pattern.Homomorphism
Main exports: Pattern.Match, Pattern.MatchesAt, Pattern.MatchesAt.of_homomorphism
-/
import PathQueryIndex.Pattern.Homomorphism

namespace PathQueryIndex

/-- `f` sends the points of a pattern to vertices of a graph, source and target to `u` and `v`, and
    every edge to an edge with its label. -/
structure Pattern.Match (p : Pattern) (g : Graph) (u v : Vertex) (f : Nat → Vertex) : Prop where
  source : f p.source = u
  target : f p.target = v
  edge : ∀ e ∈ p.edges, (⟨f e.source, f e.target, e.label⟩ : Edge) ∈ g.edges
  inRange : ∀ x < p.vertexCount, f x < g.vertexCount

/-- Whether a pattern has a match between two vertices. -/
def Pattern.MatchesAt (p : Pattern) (g : Graph) (u v : Vertex) : Prop := ∃ f, p.Match g u v f

theorem Pattern.Match.comp {p q : Pattern} {g : Graph} {u v : Vertex} {h : Nat → Nat}
    {f : Nat → Vertex} (hh : Homomorphism p q h) (hf : q.Match g u v f) :
    p.Match g u v (f ∘ h) where
  source := by simp [hh.source, hf.source]
  target := by simp [hh.target, hf.target]
  edge := fun e he => hf.edge _ (hh.edge e he)
  inRange := fun x hx => hf.inRange _ (hh.inRange x hx)

/-- A pattern that maps into another one matches wherever that one does. -/
theorem Pattern.MatchesAt.of_homomorphism {p q : Pattern} {g : Graph} {u v : Vertex} {h : Nat → Nat}
    (hh : Homomorphism p q h) : q.MatchesAt g u v → p.MatchesAt g u v :=
  fun ⟨_, hf⟩ => ⟨_, hf.comp hh⟩

namespace Homomorphism

theorem refl (p : Pattern) : Homomorphism p p id where
  source := rfl
  target := rfl
  edge := fun _ he => he
  inRange := fun _ hv => hv

theorem comp {p q r : Pattern} {f h : Nat → Nat} (hf : Homomorphism p q f)
    (hh : Homomorphism q r h) : Homomorphism p r (h ∘ f) where
  source := by simp [hf.source, hh.source]
  target := by simp [hf.target, hh.target]
  edge := fun e he => hh.edge _ (hf.edge e he)
  inRange := fun v hv => hh.inRange _ (hf.inRange v hv)

end Homomorphism

end PathQueryIndex
