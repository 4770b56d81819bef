/-
Module: PathQueryIndex.Index
Layer: Index
Purpose: The index of a graph: its blocks, and for each core the blocks that have it. The order of the
  blocks and of their pairs is only a matter of presentation.
Imports: PathQueryIndex.Index.Builder
Main exports: Index, Index.build, Index.buildWith, Index.ofPartition, Index.sort, Index.blocksForCore,
  Index.totalCores, Index.uniqueCores
-/
import PathQueryIndex.Index.Builder

namespace PathQueryIndex

/-- The places of the blocks that have each core, codes ascending. -/
abbrev CoreTable := List (CoreHash × List Nat)

/-- The table of the cores of some blocks. -/
def CoreTable.ofBlocks (blocks : List Block) : CoreTable :=
  groupByKey (blocks.zipIdx.flatMap fun (block, i) => block.coreHashes.toList.map fun h => (h, i))

/-- Blocks up to a depth, with the places of the blocks of each core. -/
structure Index where
  depth : Nat
  blocks : List Block
  hasCores : Bool
  coreTable : CoreTable

namespace Index

/-- The index of a partition, cores being computed by `c`, and the number of labeling requests. -/
def assemble (p : Partition) (o : Options) (c : Option Canonicalizer) : Traced (Index × Nat) := do
  if p.depth = 0 then Traced.lift (.error (.argument .noLayers))
  let builder ← Builder.ofPartition (if o.cores then c else none) o.maxIntersections p
  let blocks := builder.finish
  if o.cores then
    Traced.emit .mapStart
    Traced.emit .mapEnd
  return (⟨p.depth, blocks, o.cores, CoreTable.ofBlocks blocks⟩, builder.requests)

/-- The canonicalizer that the options ask for. -/
def canonicalizer (o : Options) : Canonicalizer := .ofWorkers o.threads o.timeout

/-- The index of a partition; its depth replaces that of the options. -/
def ofPartition (p : Partition) (o : Options) : Traced Index := do
  Traced.lift o.validate
  return (← assemble p o (some (canonicalizer o))).1

/-- The index of a graph, cores being computed by `c`, and the number of labeling requests. -/
def buildWith (g : Graph) (o : Options) (c : Canonicalizer) : Traced (Index × Nat) := do
  Traced.lift o.validate
  let p ← Partition.build g o.depth
  assemble p o (some c)

/-- The index of a graph. -/
def build (g : Graph) (o : Options) : Traced Index := do
  Traced.lift o.validate
  let p ← Partition.build g o.depth
  ofPartition p o

/-- Sort the pairs of every block, and the blocks by their first pairs. -/
def sort (index : Index) : Index :=
  let blocks := sortedOn (fun b : Block => b.pairs.head?)
    (index.blocks.map fun b => { b with pairs := sorted b.pairs })
  { index with blocks, coreTable := CoreTable.ofBlocks blocks }

/-- The number of cores of all blocks together. -/
def totalCores (index : Index) : Nat :=
  sumOf (index.coreTable.map fun (_, places) => places.length)

/-- The number of different cores. -/
def uniqueCores (index : Index) : Nat := index.coreTable.length

/-- The blocks that have a core. -/
def blocksForCore (index : Index) (h : CoreHash) : List Block :=
  ((index.coreTable.lookup h).getD []).filterMap fun i => index.blocks[i]?

end Index

end PathQueryIndex
