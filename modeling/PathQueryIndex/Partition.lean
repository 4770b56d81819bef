/-
Module: PathQueryIndex.Partition
Layer: Index
Purpose: The layers of pairs. Layer `i` has one segment for each pair that a walk of `i + 1` steps joins,
  and segments that cannot be told apart share an id. The first layer tells pairs apart by their labels
  and by being loops; every further layer by the ids of the parts that its walks can be split into, by
  the id that the pair had in the last layer with it, and by being loops. A layer is sorted by what
  tells its segments apart, so that segments of one id are neighbours, and ids grow from run to run and
  from layer to layer.
Imports: PathQueryIndex.Graph, PathQueryIndex.Progress, Std.Data.TreeMap
Main exports: SegmentRef, Split, Segment, Partition, Partition.build, Partition.runsOf
-/
import PathQueryIndex.Graph
import PathQueryIndex.Progress
import Std.Data.TreeMap

namespace PathQueryIndex

open Std

/-- The place of a segment. -/
structure SegmentRef where
  layer : Nat
  index : Nat
deriving DecidableEq, Repr, Inhabited

/-- A way to split the walks of a segment: the segments of the two parts, and their ids. -/
structure Split where
  first : SegmentRef
  second : SegmentRef
  firstId : Nat
  secondId : Nat
deriving DecidableEq, Repr, Inhabited

namespace Split

/-- Splits ascend by their ids; splits with the same ids count as one. -/
instance : Ord Split := ⟨compareLex (compareOn firstId) (compareOn secondId)⟩

instance : TransOrd Split :=
  inferInstanceAs (TransCmp (compareLex (compareOn firstId) (compareOn secondId)))

/-- The ids of the two parts. -/
def ids (s : Split) : Nat × Nat := (s.firstId, s.secondId)

end Split

/-- What a layer knows about a pair: the labels of the walks between its ends, the ways to split them,
    the segment of the same pair in the last layer before this one that has the pair, and that
    segment's id. -/
structure Segment where
  pair : Pair
  labels : OrderedSet LabelSequence
  splits : OrderedSet Split
  ancestor : Option SegmentRef
  ancestorId : Option Nat
  id : Nat

namespace Segment

instance : Inhabited Segment := ⟨⟨default, .empty, .empty, none, none, 0⟩⟩

/-- Whether the pair is a loop. -/
def isLoop (s : Segment) : Bool := s.pair.isLoop

/-- The order of the first layer: by labels, loops last, then by pair. -/
def compareFirst (a b : Segment) : Ordering :=
  (compare a.labels.toList b.labels.toList).then
    ((compare a.isLoop b.isLoop).then (compare a.pair b.pair))

/-- Whether two segments of the first layer cannot be told apart. -/
def sameFirst (a b : Segment) : Bool :=
  a.labels.toList == b.labels.toList && a.isLoop == b.isLoop

/-- The order of a further layer: by splits, then by ancestor, loops last, then by pair. -/
def compareJoined (a b : Segment) : Ordering :=
  (compare a.splits.toList b.splits.toList).then
    ((compare a.ancestorId b.ancestorId).then
      ((compare a.isLoop b.isLoop).then (compare a.pair b.pair)))

/-- Whether two segments of a further layer cannot be told apart. -/
def sameJoined (a b : Segment) : Bool :=
  a.splits.toList.map Split.ids == b.splits.toList.map Split.ids &&
    a.ancestorId == b.ancestorId && a.isLoop == b.isLoop

end Segment

/-- A layer, sorted. -/
abbrev Layer := Array Segment

/-- The layers of a graph up to a depth. -/
structure Partition where
  layers : Array Layer

/-- The greatest id. -/
def maxSegmentId : Nat := UInt32.size - 1

/-- The id behind another; at the end of the ids it stays the same. -/
def nextId (id : Nat) : Nat := min (id + 1) maxSegmentId

/-- Give ids to neighbouring segments: a new one wherever two neighbours can be told apart. -/
def assignIds (same : Segment → Segment → Bool) (id : Nat) : List Segment → List Segment
  | [] => []
  | [s] => [{ s with id }]
  | s :: t :: rest =>
    { s with id } :: assignIds same (if same s t then id else nextId id) (t :: rest)

/-- Sort segments and give them ids, the least of which is `id`. -/
def layerOf (order : Segment → Segment → Ordering) (same : Segment → Segment → Bool) (id : Nat)
    (segments : List Segment) : Layer :=
  (assignIds same id (segments.mergeSort fun a b => (order a b).isLE)).toArray

/-- The last id of a layer, or the one before the layer if it is empty. -/
def lastId (layer : Layer) (before : Nat) : Nat := (layer.back?.map Segment.id).getD before

/-- The segments of the first layer: for every edge its two pairs, each with its label. -/
def firstSegments (g : Graph) : List Segment :=
  let labels := g.edges.toList.flatMap fun e =>
    [(e.pair, LabelSequence.single (.forward e.label)),
     (e.pair.swap, LabelSequence.single (.backward e.label))]
  (groupByKey labels).map fun (pair, sequences) =>
    { pair
      labels := .ofList sequences
      splits := .empty
      ancestor := none
      ancestorId := none
      id := 0 }

/-- The last segment of each pair so far, and its id. -/
abbrev History := TreeMap Pair (SegmentRef × Nat)

/-- The history after one more layer. -/
def History.record (history : History) (index : Nat) (layer : Layer) : History :=
  layer.toList.zipIdx.foldl (fun h (s, i) => h.insert s.pair (⟨index, i⟩, s.id)) history

/-- One way in which a walk between a pair goes through two segments, and the labels of such walks. -/
structure Join where
  split : Split
  labels : List LabelSequence

/-- The joins of the segments of two layers. Labels are taken only where the second part is one step:
    every longer walk is met there too. -/
def joins (layers : Array Layer) (k₁ k₂ : Nat) : List (Pair × Join) :=
  let second := layers.getD k₂ #[]
  let bySource := groupByKey (second.toList.zipIdx.map fun (t, j) => (t.pair.source, (t, j)))
  (layers.getD k₁ #[]).toList.zipIdx.flatMap fun (s, i) =>
    ((bySource.find? fun (v, _) => v == s.pair.target).elim [] Prod.snd).map fun (t, j) =>
      (⟨s.pair.source, t.pair.target⟩,
        { split := ⟨⟨k₁, i⟩, ⟨k₂, j⟩, s.id, t.id⟩
          labels :=
            if k₂ = 0 then
              s.labels.toList.flatMap fun a => t.labels.toList.map fun b => a.concat b
            else [] })

/-- The segments of layer `i`, given the layers before it. -/
def joinedSegments (layers : Array Layer) (history : History) (i : Nat) : List Segment :=
  let all := (List.range i).reverse.flatMap fun k₁ => joins layers k₁ (i - 1 - k₁)
  (groupByKey all).map fun (pair, js) =>
    let ancestor := history[pair]?
    { pair
      labels := .ofList (js.flatMap Join.labels)
      splits := .ofList (js.map Join.split)
      ancestor := ancestor.map Prod.fst
      ancestorId := ancestor.map Prod.snd
      id := 0 }

namespace Partition

/-- Layers under construction: the segments found so far, and the last id given out. -/
structure Growth where
  layers : Array Layer
  history : History
  lastId : Nat

/-- The first layer alone. -/
def firstGrowth (g : Graph) : Growth :=
  let layer := layerOf Segment.compareFirst Segment.sameFirst 1 (firstSegments g)
  { layers := #[layer], history := History.record {} 0 layer, lastId := lastId layer 1 }

/-- The layers with one more. -/
def Growth.next (g : Growth) : Except Error Growth :=
  if g.lastId < maxSegmentId then
    let i := g.layers.size
    let start := g.lastId + 1
    let layer := layerOf Segment.compareJoined Segment.sameJoined start
      (joinedSegments g.layers g.history i)
    .ok { layers := g.layers.push layer
          history := g.history.record i layer
          lastId := PathQueryIndex.lastId layer start }
  else .error (.state .idsExhausted)

/-- What is reported while layer `i` is made from the layers before it. -/
def combinationEvents (i : Nat) : List Event :=
  (List.range i).reverse.flatMap fun k₁ =>
    [.combinationStart (k₁ + 1) (i - k₁), .combinationEnd (k₁ + 1) (i - k₁)]

/-- Add further layers. -/
def grow : Nat → Growth → Traced Growth
  | 0, g => pure g
  | n + 1, g => do
    let i := g.layers.size
    Traced.emit (.partitionStart (i + 1))
    let g ← Traced.lift g.next
    (⟨combinationEvents i, .ok ()⟩ : Traced Unit)
    Traced.emit (.partitionEnd (i + 1))
    grow n g

/-- The layers for walks of one to `k` steps. -/
def build (g : Graph) (k : Nat) : Traced Partition :=
  match k with
  | 0 => Traced.lift (.error (.argument .depth))
  | n + 1 => do
    Traced.emit (.partitionStart 1)
    Traced.emit (.partitionEnd 1)
    let growth ← grow n (firstGrowth g)
    return ⟨growth.layers⟩

/-- How many layers there are. -/
def depth (p : Partition) : Nat := p.layers.size

/-- A layer, empty if there is none with that number. -/
def layer (p : Partition) (i : Nat) : Layer := p.layers.getD i #[]

/-- The stretches of a layer that share an id. -/
def runsOf (p : Partition) (i : Nat) : List (List Segment) :=
  runs (fun a b => a.id == b.id) (p.layer i).toList

end Partition

end PathQueryIndex
