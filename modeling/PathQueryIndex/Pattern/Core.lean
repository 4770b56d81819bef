/-
Module: PathQueryIndex.Pattern.Core
Layer: Core
Purpose: The core of a pattern: its smallest image under maps to itself. While some map misses a
  point, the pattern is replaced by its image under that map, which has fewer points.
Imports: PathQueryIndex.Pattern.Homomorphism
Main exports: Pattern.core
-/
import PathQueryIndex.Pattern.Homomorphism

namespace PathQueryIndex.Pattern

/-- Fold the pattern until every map to itself hits all points. -/
def core (p : Pattern) : Pattern :=
  match p.folding? with
  | none => p
  | some images =>
    let folded := p.image fun v => images.getD v v
    if folded.vertexCount < p.vertexCount then core folded else folded
termination_by p.vertexCount

end PathQueryIndex.Pattern
