/-
Module: PathQueryIndex.Index.Statistics
Layer: Output
Purpose: An index in numbers: its blocks, pairs, label sequences and cores, and the checksum of its
  export, as lines of text or as a value in the notation of JSON.
Imports: PathQueryIndex.Listing.Export, PathQueryIndex.Text.Json
Main exports: Statistics, Statistics.ofIndex, Statistics.text, Statistics.json
-/
import PathQueryIndex.Listing.Export
import PathQueryIndex.Text.Json

namespace PathQueryIndex

open Text (Json)

/-- The numbers of an index. -/
structure Statistics where
  depth : Nat
  blocks : Nat
  loopBlocks : Nat
  pairs : Nat
  labelSequences : Nat
  hasCores : Bool
  totalCores : Nat
  uniqueCores : Nat
  checksum : UInt64
deriving DecidableEq, Repr

namespace Statistics

/-- Count what an index has. -/
def ofIndex (index : Index) : Statistics where
  depth := index.depth
  blocks := index.blocks.length
  loopBlocks := (index.blocks.filter Block.isLoop).length
  pairs := sumOf (index.blocks.map (·.pairs.length))
  labelSequences := sumOf (index.blocks.map (·.labels.size))
  hasCores := index.hasCores
  totalCores := index.totalCores
  uniqueCores := index.uniqueCores
  checksum := index.checksum

/-- The numbers in lines, under the name of the graph. Cores are counted only if they were computed. -/
def text (s : Statistics) (graph : String) : String :=
  let cores :=
    if s.hasCores then
      [s!"Cores:           {s.totalCores}", s!"Unique Cores:    {s.uniqueCores}"]
    else []
  let lines :=
    ["cpqindex Statistics", "===================", s!"Graph: {graph}", s!"K:     {s.depth}", "",
      s!"Blocks:          {s.blocks}", s!"Loop Blocks:     {s.loopBlocks}",
      s!"Pairs:           {s.pairs}", s!"Label Sequences: {s.labelSequences}"] ++
      cores ++ [s!"Checksum:        {s.checksum}"]
  String.join (lines.map (· ++ "\n"))

/-- The numbers as a value. -/
def json (s : Statistics) : Json :=
  .object [("k", .number s.depth), ("blocks", .number s.blocks),
    ("loop_blocks", .number s.loopBlocks), ("pairs", .number s.pairs),
    ("label_sequences", .number s.labelSequences), ("has_cores", .bool s.hasCores),
    ("total_cores", .number s.totalCores), ("unique_cores", .number s.uniqueCores),
    ("checksum", .number s.checksum.toNat)]

end Statistics

end PathQueryIndex
