/-
Module: PathQueryIndex.Query.Answer
Layer: Core
Purpose: What a query means: the pairs of vertices that it relates in a graph. The identity relates each
  vertex to itself, a label its steps, a concatenation composes, and an intersection asks for both. The
  query of a label sequence relates the ends of the walks that spell it.
Imports: PathQueryIndex.Graph.Walk, PathQueryIndex.Query
Main exports: Query.Holds, Query.holds_path
-/
import PathQueryIndex.Graph.Walk
import PathQueryIndex.Query

namespace PathQueryIndex.Query

/-- Whether a query relates two vertices of a graph. -/
def Holds (g : Graph) : Query → Vertex → Vertex → Prop
  | identity, u, v => u = v ∧ u < g.vertexCount
  | label l, u, v => g.Step l u v
  | concat first second, u, v => ∃ w, first.Holds g u w ∧ second.Holds g w v
  | intersect left right, u, v => left.Holds g u v ∧ right.Holds g u v

variable {g : Graph} {u v : Vertex}

theorem holds_foldl_concat {q : Query} {ls : List Label} :
    ((ls.map label).foldl concat q).Holds g u v ↔ ∃ w, q.Holds g u w ∧ g.Walk w ls v := by
  induction ls generalizing q with
  | nil => simp
  | cons l ls ih =>
    simp only [List.map_cons, List.foldl_cons, ih, Graph.walk_cons]
    constructor
    · rintro ⟨w, ⟨x, hq, hs⟩, hw⟩; exact ⟨x, hq, w, hs, hw⟩
    · rintro ⟨x, hq, w, hs, hw⟩; exact ⟨w, ⟨x, hq, hs⟩, hw⟩

/-- The query of a sequence relates the ends of the walks that spell it. -/
theorem holds_path {s : LabelSequence} : (path s).Holds g u v ↔ g.Walk u s.labels v := by
  obtain ⟨labels, hne⟩ := s
  cases labels with
  | nil => exact absurd rfl hne
  | cons l ls =>
    have h : path ⟨l :: ls, hne⟩ = (ls.map label).foldl concat (label l) := rfl
    rw [h, holds_foldl_concat, Graph.walk_cons]
    rfl

end PathQueryIndex.Query
