/-
Module: PathQueryIndex.Index.Report
Layer: Output
Purpose: An index as text: block after block, as a table with a column for each block, or as a value in
  the notation of JSON.
Imports: PathQueryIndex.Index, PathQueryIndex.Text.Json
Main exports: OutputFormat, Index.listing, Index.table, Index.json, Index.render
-/
import PathQueryIndex.Index
import PathQueryIndex.Text.Json

namespace PathQueryIndex

open Text (Json)

/-- The ways to show an index. -/
inductive OutputFormat where
  | listing
  | table
  | json
deriving DecidableEq, Repr, Inhabited

/-- The lines of a block, with its cores if cores were computed. -/
def Block.lines (b : Block) (hasCores : Bool) : List String :=
  [s!"Block {b.id} (k={b.layer}, {b.pairs.length} pairs)",
   "  Pairs:  " ++ " ".intercalate (b.pairs.map Pair.text),
   "  Labels: " ++ " ".intercalate (b.labels.toList.map LabelSequence.text)] ++
  if hasCores then
    s!"  Cores:  {b.cores.length}" ::
      b.cores.map fun core => "    " ++ CoreHash.base64 core.hash ++ "  " ++ core.query.text
  else []

/-- The greatest number of a list, zero if there is none. -/
def greatest (ns : List Nat) : Nat := ns.foldl max 0

/-- The heights of the three parts of a table. -/
structure TableShape where
  pairs : Nat
  labels : Nat
  cores : Nat

namespace TableShape

/-- Room for every block. -/
def ofBlocks (blocks : List Block) : TableShape where
  pairs := greatest (blocks.map (·.pairs.length))
  labels := greatest (blocks.map (·.labels.size))
  cores := greatest (blocks.map (·.cores.length))

/-- The cell between two parts. -/
def rule : String := "-----"

/-- The least width of a column. -/
def leastWidth : Nat := 5

/-- Cells for one part, filled up with empty ones. -/
def part (height : Nat) (cells : List String) : List String :=
  cells ++ List.replicate (height - cells.length) ""

/-- The cells of the column of a block: its id, a blank one, and the three parts with rules between
    them. -/
def column (shape : TableShape) (b : Block) : List String :=
  [s!"{b.id}", ""] ++ part shape.pairs (b.pairs.map Pair.text) ++ [rule] ++
    part shape.labels (b.labels.toList.map LabelSequence.text) ++ [rule] ++
    part shape.cores (b.cores.map fun core => core.query.text)

/-- The width of the column of a block: its longest pair, label sequence or core decides. -/
def width (b : Block) : Nat :=
  greatest (leastWidth :: (b.pairs.map Pair.text ++ b.labels.toList.map LabelSequence.text ++
    b.cores.map fun core => core.query.text).map String.length)

/-- Fill a row up to a width: a row that ends in a rule with dashes, any other with blanks. -/
def fill (width : Nat) (row : List Char) : List Char :=
  let mark := if row.getLast? = some '-' then '-' else ' '
  row ++ List.replicate (width - row.length) mark

/-- The rows with one more column, and their width. -/
def addColumn (shape : TableShape) (table : List (List Char) × Nat) (b : Block) :
    List (List Char) × Nat :=
  let (rows, before) := table
  let after := before + width b + 2
  let bar := if before = 0 then [] else ['|']
  (rows.zipWith (fun row cell => fill after (row ++ bar ++ cell.toList)) (shape.column b), after)

end TableShape

namespace Index

/-- The index block after block. -/
def listing (index : Index) : String :=
  String.join (index.blocks.flatMap fun b => (b.lines index.hasCores).map (· ++ "\n"))

/-- The index as a table with a column for each block. -/
def table (index : Index) : String :=
  let shape := TableShape.ofBlocks index.blocks
  let height := 4 + shape.pairs + shape.labels + shape.cores
  let (rows, _) := index.blocks.foldl shape.addColumn (List.replicate height [], 0)
  String.join (rows.map fun row => String.ofList row ++ "\n")

/-- A block as a value. -/
def blockJson (b : Block) : Json :=
  .object [("id", .number b.id), ("k", .number b.layer),
    ("pairs", .array (b.pairs.map fun p =>
      .array [.number p.source.toNat, .number p.target.toNat])),
    ("labels", .array (b.labels.toList.map fun s => .text s.text)),
    ("cores", .array (b.cores.map fun core => .text (CoreHash.base64 core.hash)))]

/-- The index as a value. -/
def json (index : Index) : Json :=
  .object [("k", .number index.depth), ("block_count", .number index.blocks.length),
    ("has_cores", .bool index.hasCores), ("total_cores", .number index.totalCores),
    ("unique_cores", .number index.uniqueCores),
    ("blocks", .array (index.blocks.map blockJson))]

/-- The index in some format. -/
def render (index : Index) : OutputFormat → String
  | .listing => index.listing
  | .table => index.table
  | .json => index.json.pretty

end Index

end PathQueryIndex
