/-
Module: PathQueryIndex.Index.Builder
Layer: Index
Purpose: Blocks from the layers of a partition. Every run of a layer becomes a block. A pair is held by
  the block of the last layer that has it, so a new block takes pairs over from earlier ones and
  inherits their labels and cores. In the end the blocks of the last layer are complete, and every
  earlier block keeps the pairs that no later layer has taken over.
Imports: PathQueryIndex.Partition, PathQueryIndex.Index.Options, PathQueryIndex.Index.Block,
  PathQueryIndex.Index.Closure
Main exports: Draft, Builder, Builder.addBlock, Builder.addCores, Builder.addLayer, Builder.finish,
  Builder.ofPartition
-/
import PathQueryIndex.Partition
import PathQueryIndex.Index.Options
import PathQueryIndex.Index.Block
import PathQueryIndex.Index.Closure

namespace PathQueryIndex

open Std

/-- Two earlier blocks whose walks join to the walks of a block. -/
structure BlockJoin where
  first : Nat
  second : Nat
deriving DecidableEq, Repr

namespace BlockJoin

/-- Joins ascend by the first block, then by the second. -/
instance : Ord BlockJoin := ⟨compareLex (compareOn first) (compareOn second)⟩

instance : TransOrd BlockJoin :=
  inferInstanceAs (TransCmp (compareLex (compareOn first) (compareOn second)))

instance : LawfulEqOrd BlockJoin where
  eq_of_compare {a b} h := by
    have h : (compareLex (compareOn first) (compareOn second)) a b = .eq := h
    simp only [compareLex_eq_eq, compareOn, LawfulEqCmp.compare_eq_iff_eq] at h
    cases a; cases b; simp_all

end BlockJoin

/-- A block with the blocks that it takes pairs over from, and those that its walks are joined of. -/
structure Draft where
  block : Block
  inherited : OrderedSet Nat
  joins : OrderedSet BlockJoin

instance : Inhabited Draft := ⟨⟨default, .empty, .empty⟩⟩

/-- Blocks under construction. They are numbered in the order in which they are made: `owners` has the
    block of every segment of the layers so far, `holder` the block that holds each pair, and `finals`
    the blocks of the last layer. -/
structure Builder where
  drafts : Array Draft
  owners : Array (Array Nat)
  holder : TreeMap Pair Nat
  finals : List Nat
  requests : Nat

namespace Builder

/-- Nothing built yet. -/
def empty : Builder := ⟨#[], #[], {}, [], 0⟩

/-- The block of a segment. -/
def owner (b : Builder) (r : SegmentRef) : Except Error Nat :=
  match (b.owners.getD r.layer #[])[r.index]? with
  | some block => .ok block
  | none => .error (.state (.noBlock r.index (r.layer + 1)))

/-- The blocks at both ends of a split. -/
def joinOf (b : Builder) (s : Split) : Except Error BlockJoin := do
  return ⟨← b.owner s.first, ← b.owner s.second⟩

/-- Make a block of a run. It takes over the pairs of the run, and it holds them until a later layer
    takes them over in turn, unless this layer is the last one. -/
def addBlock (layer : Nat) (last : Bool) (b : Builder) (run : List Segment) : Except Error Builder :=
  match run with
  | [] => .error (.state (.emptyRun (layer + 1)))
  | representative :: _ => do
    let pairs := run.map Segment.pair
    let inherited : OrderedSet Nat := .ofList (pairs.filterMap fun p => b.holder[p]?)
    let joins ← representative.splits.toList.mapM b.joinOf
    let labels := representative.labels.toList ++
      inherited.toList.flatMap fun i => (b.drafts.getD i default).block.labels.toList
    let number := b.drafts.size
    let block : Block :=
      { id := representative.id
        layer := layer + 1
        pairs
        labels := .ofList labels
        cores := []
        coreHashes := .empty }
    return { b with
      drafts := b.drafts.push ⟨block, inherited, .ofList joins⟩
      holder := pairs.foldl (fun h p => if last then h.erase p else h.insert p number) b.holder
      finals := if last then b.finals ++ [number] else b.finals }

/-- The cores that a block starts from, and how many of them are inherited. A block of the first layer
    has the path of each of its label sequences; a later one has the cores of the blocks it takes pairs
    over from and the concatenations of the cores of the blocks that it is joined of. -/
def baseCores (c : Canonicalizer) (b : Builder) (draft : Draft) : Except Error (CoreSet × Nat) := do
  let set := CoreSet.empty b.requests
  if draft.joins.isEmpty then
    let paths := draft.block.labels.toList.map Query.path
    return (← set.absorb c (paths.map fun q => (q, canonicalPattern q true)), 0)
  let coresOf := fun i => (b.drafts.getD i default).block.cores
  let set := (draft.inherited.toList.flatMap coresOf).foldl CoreSet.insert set
  let joined := draft.joins.toList.flatMap fun j =>
    (coresOf j.first).flatMap fun p => (coresOf j.second).map fun s => Query.concat p.query s.query
  return (← set.absorb c (joined.map fun q => (q, canonicalPattern q false)), set.cores.size)

/-- All cores of a block. -/
def coresOf (c : Canonicalizer) (limit : Option Nat) (b : Builder) (draft : Draft) :
    Except Error CoreSet := do
  let (set, inherited) ← b.baseCores c draft
  let set ← set.close c limit inherited
  if draft.block.isLoop then set.anchor c inherited else return set

/-- Compute the cores of a block. -/
def addCores (c : Canonicalizer) (limit : Option Nat) (b : Builder) (number : Nat) :
    Except Error Builder := do
  let draft := b.drafts.getD number default
  let set ← b.coresOf c limit draft
  let block := { draft.block with cores := set.cores.toList, coreHashes := set.hashes }
  return { b with
    drafts := b.drafts.setIfInBounds number { draft with block }
    requests := set.requests }

/-- Compute the cores of all blocks from the given number on. -/
def addLayerCores (c : Canonicalizer) (limit : Option Nat) (layer first : Nat) (b : Builder) :
    Traced Builder := do
  Traced.emit (.coresStart (layer + 1))
  let total := b.drafts.size - first
  let b ← (List.range total).foldlM (fun b done => do
    let b ← Traced.lift (b.addCores c limit (first + done))
    Traced.emit (.coresDone (done + 1) total)
    return b) b
  Traced.emit (.coresEnd (layer + 1))
  return b

/-- Make the blocks of a layer, and their cores if there is a canonicalizer. -/
def addLayer (c : Option Canonicalizer) (limit : Option Nat) (p : Partition) (b : Builder)
    (layer : Nat) : Traced Builder := do
  Traced.emit (.blocksStart (layer + 1))
  let first := b.drafts.size
  let runs := p.runsOf layer
  let b ← Traced.lift (runs.foldlM (addBlock layer (layer + 1 == p.depth)) b)
  let owners := (runs.zipIdx first).flatMap fun (run, i) => List.replicate run.length i
  let b := { b with owners := b.owners.push owners.toArray }
  Traced.emit (.blocksEnd (layer + 1))
  match c with
  | none => return b
  | some c => b.addLayerCores c limit layer first

/-- The blocks of the last layer, then those that still hold pairs, with these pairs only. -/
def finish (b : Builder) : List Block :=
  b.finals.map (fun i => (b.drafts.getD i default).block) ++
    b.drafts.toList.zipIdx.filterMap fun (draft, i) =>
      let pairs := draft.block.pairs.filter fun p => b.holder[p]? == some i
      if pairs.isEmpty then none else some { draft.block with pairs }

/-- Build all layers of a partition. -/
def ofPartition (c : Option Canonicalizer) (limit : Option Nat) (p : Partition) : Traced Builder :=
  (List.range p.depth).foldlM (addLayer c limit p) empty

end Builder

end PathQueryIndex
