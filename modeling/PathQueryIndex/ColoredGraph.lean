/-
Module: PathQueryIndex.ColoredGraph
Layer: Core
Purpose: Patterns as graphs with colored nodes. Every edge of a pattern becomes a node of its own between
  its two ends, and what distinguished points and edges is carried by color classes: the source, the
  target, the edges of each label, and all other points. A list of classes has a flat code: the nodes,
  counted from one, the last node of each class negated.
Imports: PathQueryIndex.Pattern
Main exports: ColoredGraph, ColoredGraph.ofPattern, ColoredGraph.classes, encodeClasses, decodeClasses
-/
import PathQueryIndex.Pattern

namespace PathQueryIndex

/-- A graph over the nodes below the number of its rows; row `v` lists the nodes that `v` points to.
    The nodes of each label stand with the label, labels ascending; `others` are the nodes that are
    neither source nor target and carry no label. -/
structure ColoredGraph where
  rows : List (List Nat)
  source : Nat
  target : Nat
  labeled : List (UInt32 × List Nat)
  others : List Nat
deriving DecidableEq, Repr

namespace ColoredGraph

/-- How many nodes there are. -/
def nodeCount (g : ColoredGraph) : Nat := g.rows.length

/-- The graph of a pattern: the points keep their numbers, and the edges follow them in order. -/
def ofPattern (p : Pattern) : ColoredGraph :=
  let numbered := p.edges.toList.zipIdx p.vertexCount
  let labels : OrderedSet UInt32 := .ofList (p.edges.toList.map PatternEdge.label)
  { rows :=
      ((List.range p.vertexCount).map fun v =>
        (numbered.filter fun (e, _) => e.source == v).map Prod.snd) ++
      p.edges.toList.map fun e => [e.target]
    source := p.source
    target := p.target
    labeled := labels.toList.map fun l =>
      (l, (numbered.filter fun (e, _) => e.label == l).map Prod.snd)
    others := (List.range p.vertexCount).filter fun v => v != p.source && v != p.target }

/-- For each label, how many nodes carry it. -/
def labelCounts (g : ColoredGraph) : List (Nat × Nat) :=
  g.labeled.map fun (label, nodes) => (label.toNat, nodes.length)

/-- The classes of nodes that have to be told apart, in order, none of them empty. -/
def classes (g : ColoredGraph) : List (List Nat) :=
  [g.source] :: (if g.target = g.source then [] else [[g.target]]) ++ g.labeled.map Prod.snd ++
    if g.others.isEmpty then [] else [g.others]

end ColoredGraph

/-- The code of one class. -/
def encodeClass : List Nat → List Int
  | [] => []
  | [v] => [-(v + 1)]
  | v :: vs => (v + 1 : Int) :: encodeClass vs

/-- The flat code of some classes. -/
def encodeClasses (classes : List (List Nat)) : List Int := classes.flatMap encodeClass

/-- The node that an entry names, unless it is zero. -/
def entryNode? (entry : Int) : Option Nat :=
  match entry.natAbs with
  | 0 => none
  | v + 1 => some v

/-- The nodes that the entries name, which have to be different and below `count`. -/
def entryNodes (count : Nat) (seen : List Nat) : List Int → Except Error (List Nat)
  | [] => .ok []
  | entry :: entries =>
    match entryNode? entry with
    | none => .error (.labeling (.colorEntry entry))
    | some v =>
      if count ≤ v ∨ v ∈ seen then .error (.labeling (.colorEntry entry))
      else do return v :: (← entryNodes count (v :: seen) entries)

/-- Cut nodes into classes behind each negative entry; what follows the last one is left over. -/
def splitClasses : List (Int × Nat) → List (List Nat) × List Nat
  | [] => ([], [])
  | (entry, v) :: rest =>
    let (classes, left) := splitClasses rest
    if entry < 0 then ([v] :: classes, left)
    else
      match classes with
      | [] => ([], v :: left)
      | c :: cs => ((v :: c) :: cs, left)

/-- The classes of a code that covers all nodes below `count`. -/
def decodeClasses (count : Nat) (code : List Int) : Except Error (List (List Nat)) := do
  let nodes ← entryNodes count [] code
  let (classes, left) := splitClasses (code.zip nodes)
  if !left.isEmpty then throw (.labeling .openClass)
  if nodes.length < count then throw (.labeling .uncolored)
  return classes

namespace ColoredGraph

/-- The flat code of the classes. -/
def coding (g : ColoredGraph) : List Int := encodeClasses g.classes

end ColoredGraph

end PathQueryIndex
