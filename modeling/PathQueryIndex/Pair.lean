/-
Module: PathQueryIndex.Pair
Layer: Core
Purpose: Vertices and ordered pairs of vertices, the things that an index classifies.
Imports: PathQueryIndex.OrderedSet
Main exports: Vertex, Pair, Pair.isLoop, Pair.swap, Pair.text
-/
import PathQueryIndex.OrderedSet

namespace PathQueryIndex

open Std

/-- Vertices are numbered from zero in 32 bits. -/
abbrev Vertex := UInt32

/-- A source and a target. -/
structure Pair where
  source : Vertex
  target : Vertex
deriving DecidableEq, Repr, Inhabited

namespace Pair

/-- Pairs ascend by source, then by target. -/
instance : Ord Pair := ⟨compareLex (compareOn source) (compareOn target)⟩

instance : TransOrd Pair :=
  inferInstanceAs (TransCmp (compareLex (compareOn source) (compareOn target)))

instance : LawfulEqOrd Pair where
  eq_of_compare {a b} h := by
    have h : (compareLex (compareOn source) (compareOn target)) a b = .eq := h
    simp only [compareLex_eq_eq, compareOn, LawfulEqCmp.compare_eq_iff_eq] at h
    cases a; cases b; simp_all

/-- Whether both ends are the same vertex. -/
def isLoop (p : Pair) : Bool := p.source == p.target

/-- The pair read from its other end. -/
def swap (p : Pair) : Pair := ⟨p.target, p.source⟩

@[simp] theorem swap_swap (p : Pair) : p.swap.swap = p := rfl

/-- The displayed form, `(1,2)`. -/
def text (p : Pair) : String := s!"({p.source},{p.target})"

end Pair

end PathQueryIndex
