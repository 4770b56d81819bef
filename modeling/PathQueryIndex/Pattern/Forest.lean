/-
Module: PathQueryIndex.Pattern.Forest
Layer: Core
Purpose: Classes of points, kept as a forest. Each point has a parent, and a point that is its own parent is
  the root that stands for its class. Looking a root up puts the points on the way right below it. Of two
  classes that become one, the greater root is put below the smaller one, so that a parent is never
  greater than its point and a root is the least point of its class.
Imports: none
Main exports: Forest, Forest.root, Forest.compress, Forest.find, Forest.union, Forest.roots
-/

namespace PathQueryIndex

/-- The parents of the points. -/
abbrev Forest := Array Nat

namespace Forest

/-- Every point in a class of its own. -/
def discrete (count : Nat) : Forest := Array.range count

variable (f : Forest)

/-- The parent of a point; a point that is not in the forest is its own parent. -/
def parent (v : Nat) : Nat := f.getD v v

/-- The root of a point. Parents are smaller than their points, other than those of roots. -/
def root (v : Nat) : Nat := if f.parent v < v then root (f.parent v) else v
termination_by v

/-- Put a point and those above it right below the root, up to the first one that is there already. -/
def compress (f : Forest) (root v : Nat) : Forest :=
  if f.parent v = root then f
  else if f.parent v < v then compress (f.setIfInBounds v root) root (f.parent v) else f
termination_by v

/-- Look up the root of a point. -/
def find (v : Nat) : Nat × Forest := (f.root v, f.compress (f.root v) v)

/-- Put the greater of two roots below the smaller one. -/
def link (a b : Nat) : Forest := if a = b then f else f.setIfInBounds (max a b) (min a b)

/-- Make the classes of two points one. -/
def union (a b : Nat) : Forest :=
  let (first, f) := f.find a
  let (second, f) := f.find b
  f.link first second

/-- The roots of all points. -/
def roots : Array Nat := (Array.range f.size).map f.root

end Forest

end PathQueryIndex
