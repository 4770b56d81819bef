/-
Module: PathQueryIndex.Index.Closure
Layer: Index
Purpose: Closing the cores of a block under intersection. Every pair of cores is intersected unless one
  maps into the other, and then larger sets of cores, up to a limit, that contain no such pair and no
  pair whose intersection folded further. The leading cores come from an earlier layer and are closed
  already, so at most one of them takes part. The cores of a block of loops are at last anchored: each
  is intersected with the identity.
Imports: PathQueryIndex.Index.CoreSet, PathQueryIndex.Index.SubsetCursor
Main exports: homomorphicConflicts, pairings, CoreSet.close, CoreSet.anchor
-/
import PathQueryIndex.Index.CoreSet
import PathQueryIndex.Index.SubsetCursor

namespace PathQueryIndex

/-- The pairs of patterns of which one maps into the other, the leading `inherited` ones aside. -/
def homomorphicConflicts (patterns : Array Pattern) (inherited : Nat) : Conflicts :=
  (patterns.zipIdx.map fun (p, i) =>
    (List.range' inherited (i - inherited)).filter fun j =>
      (patterns[j]?).any fun q => p.mapsInto q || q.mapsInto p)

/-- The pairs to be intersected, the later member first: each that is not inherited with all members
    before it. -/
def pairings (count inherited : Nat) (conflicts : Conflicts) : List (Nat × Nat) :=
  (List.range' inherited (count - inherited)).flatMap fun i =>
    ((List.range i).filter fun j => !conflicts.holds i j).map fun j => (i, j)

/-- A query with the core of its pattern, and whether its pattern is a core already. -/
structure Folded where
  query : Query
  core : Pattern
  wasCore : Bool

/-- Fold the pattern of a query. -/
def Folded.ofQuery (q : Query) : Folded :=
  let p := Pattern.ofQuery q
  let core := p.core
  ⟨q, core, core.vertexCount == p.vertexCount⟩

namespace CoreSet

/-- The set closed under intersections of up to `limit` cores; the first `inherited` cores are closed
    among themselves. -/
def close (c : Canonicalizer) (limit : Option Nat) (inherited : Nat) (set : CoreSet) :
    Except Error CoreSet := do
  let base := set.cores.map Core.query
  let query := fun i => base.getD i .identity
  let conflicts := homomorphicConflicts (base.map Pattern.ofQuery) inherited
  let pairs := (pairings base.size inherited conflicts).map fun (i, j) =>
    (i, j, Folded.ofQuery (.intersect (query i) (query j)))
  let conflicts := pairs.foldl
    (fun cs (i, j, f) => if f.wasCore then cs else cs.modify i (j :: ·)) conflicts
  let set ← set.absorb c (pairs.map fun (_, _, f) => (f.query, f.core))
  let limit := limit.getD base.size
  if limit < 3 then return set
  let larger := (subsetsOf base.size inherited limit conflicts).filterMap fun members =>
    (Query.intersectAll? (members.map query)).map Folded.ofQuery
  set.absorb c (larger.map fun f => (f.query, f.core))

/-- The set with every core that is not inherited intersected with the identity. -/
def anchor (c : Canonicalizer) (inherited : Nat) (set : CoreSet) : Except Error CoreSet :=
  set.absorb c ((set.cores.toList.drop inherited).map fun core =>
    let q := Query.intersect core.query .identity
    (q, canonicalPattern q false))

end CoreSet

end PathQueryIndex
