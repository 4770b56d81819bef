/-
Module: PathQueryIndex.Pattern
Layer: Core
Purpose: The pattern of a query: a small graph with a source and a target, which matches between two
  vertices wherever it maps there edge by edge. It is built in two steps. The outline of a query numbers
  its points, lists its edges, and lists the points that the identity makes equal; then every point
  is represented by the least point equal to it, and the representatives are numbered anew, the source
  first and the target next.
Imports: PathQueryIndex.Query, PathQueryIndex.Graph, PathQueryIndex.Pattern.Forest
Main exports: PatternEdge, Pattern, Pattern.isLoop, Outline, Query.outline, leastEqual, Pattern.ofQuery,
  Pattern.image
-/
import PathQueryIndex.Query
import PathQueryIndex.Graph
import PathQueryIndex.Pattern.Forest

namespace PathQueryIndex

open Std

/-- An edge between points of a pattern, always written forwards. -/
structure PatternEdge where
  source : Nat
  target : Nat
  label : UInt32
deriving DecidableEq, Repr, Inhabited

namespace PatternEdge

/-- Edges ascend by source, target and label. -/
instance : Ord PatternEdge :=
  ⟨compareLex (compareOn source) (compareLex (compareOn target) (compareOn label))⟩

instance : TransOrd PatternEdge :=
  inferInstanceAs (TransCmp
    (compareLex (compareOn source) (compareLex (compareOn target) (compareOn label))))

instance : LawfulEqOrd PatternEdge where
  eq_of_compare {a b} h := by
    have h : (compareLex (compareOn source) (compareLex (compareOn target) (compareOn label)))
      a b = .eq := h
    simp only [compareLex_eq_eq, compareOn, LawfulEqCmp.compare_eq_iff_eq] at h
    cases a; cases b; simp_all

/-- The edge between the images of its ends. -/
def map (f : Nat → Nat) (e : PatternEdge) : PatternEdge := ⟨f e.source, f e.target, e.label⟩

/-- The edge that a label asks for between two points. -/
def ofLabel (l : Label) (s t : Nat) : PatternEdge :=
  if l.inverse then ⟨t, s, l.id⟩ else ⟨s, t, l.id⟩

end PatternEdge

/-- A graph over the points below a count, with two distinguished points. -/
structure Pattern where
  vertexCount : Nat
  source : Nat
  target : Nat
  edges : OrderedSet PatternEdge
deriving DecidableEq

namespace Pattern

/-- Whether source and target are the same point. -/
def isLoop (p : Pattern) : Bool := p.source == p.target

/-- How many edges the pattern has. -/
def edgeCount (p : Pattern) : Nat := p.edges.size

/-- The pattern over the points of a list, numbered by their first places in it. -/
def numbered (points : List Nat) (source target : Nat) (edges : List PatternEdge) : Pattern :=
  let distinct := points.eraseDups
  let number := fun v => distinct.idxOf v
  { vertexCount := distinct.length
    source := number source
    target := number target
    edges := .ofList (edges.map (·.map number)) }

end Pattern

/-- What a query says about numbered points: the first number not in use, the edges, and the points
    that have to be equal. -/
structure Outline where
  fresh : Nat
  edges : List PatternEdge
  equalities : List (Nat × Nat)
deriving DecidableEq, Repr

/-- The outline of a query between points `s` and `t`, new points being numbered from `fresh` on. A
    concatenation takes its middle point before the points of its parts. -/
def Query.outline : Query → Nat → Nat → Nat → Outline
  | .identity, s, t, fresh => ⟨fresh, [], [(s, t)]⟩
  | .label l, s, t, fresh => ⟨fresh, [.ofLabel l s t], []⟩
  | .concat first second, s, t, fresh =>
    let a := first.outline s fresh (fresh + 1)
    let b := second.outline fresh t a.fresh
    ⟨b.fresh, a.edges ++ b.edges, a.equalities ++ b.equalities⟩
  | .intersect left right, s, t, fresh =>
    let a := left.outline s t fresh
    let b := right.outline s t a.fresh
    ⟨b.fresh, a.edges ++ b.edges, a.equalities ++ b.equalities⟩

/-- For each point below `count` the least point that the equalities make equal to it. -/
def leastEqual (count : Nat) (equalities : List (Nat × Nat)) : Array Nat :=
  (equalities.foldl (fun f e => f.union e.1 e.2) (Forest.discrete count)).roots

namespace Pattern

/-- The pattern of a query. Its source has number 0, and so has its target if the query makes them
    equal; otherwise the target has number 1. -/
def ofQuery (q : Query) : Pattern :=
  let outline := q.outline 0 1 2
  let least := leastEqual outline.fresh outline.equalities
  let point := fun v => least.getD v v
  numbered (point 0 :: point 1 :: (List.range outline.fresh).map point) (point 0) (point 1)
    (outline.edges.map (·.map point))

/-- The ends of all edges. -/
def endpoints (p : Pattern) : List Nat :=
  p.edges.toList.flatMap fun e => [e.source, e.target]

/-- The image of a pattern under a map of its points that keeps source and target: the images of the
    edges, over the points that they touch. -/
def image (p : Pattern) (f : Nat → Nat) : Pattern :=
  let used : OrderedSet Nat := .ofList (p.source :: p.target :: p.endpoints.map f)
  numbered (p.source :: p.target :: used.toList) p.source p.target
    (p.edges.toList.map (·.map f))

end Pattern

end PathQueryIndex
