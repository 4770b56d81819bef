/-
Module: PathQueryIndex.Graph.Reader
Layer: Core
Purpose: Graphs from text. The first line announces the numbers of vertices, edges and labels; each
  further line that is not blank is an edge: source, target, label. Bytes are cut into lines first, and
  each line is decoded when its turn comes, so the first bad line in order is the one reported.
Imports: PathQueryIndex.Graph, PathQueryIndex.Text.Blank
Main exports: Graph.read
-/
import PathQueryIndex.Graph
import PathQueryIndex.Text.Blank

namespace PathQueryIndex

/-- A carriage return at the end of a line belongs to the line end. -/
def chopReturn (line : List UInt8) : List UInt8 :=
  if line.getLast? = some 0x0D then line.dropLast else line

/-- The lines of a text. Every line feed ends a line, and the bytes after the last one are a line if
    there are any. -/
def byteLines (bytes : List UInt8) : List (List UInt8) :=
  let parts := Text.pieces (· == 0x0A) bytes
  let complete := parts.dropLast.map chopReturn
  match parts.getLast? with
  | some (b :: rest) => complete ++ [b :: rest]
  | _ => complete

/-- The characters of a line. -/
def decodeLine (line : List UInt8) : Except Error (List Char) :=
  match String.fromUTF8? ⟨line.toArray⟩ with
  | some text => .ok text.toList
  | none => .error (.io "stream did not contain valid UTF-8")

/-- Three numbers and nothing else. -/
def readFields (number : Nat) (line : List Char) : Except Error (UInt32 × UInt32 × UInt32) := do
  let field (word : Option (List Char)) : Except Error UInt32 :=
    match word with
    | none => .error (.line number .threeIntegers)
    | some word =>
      match Text.word32? word with
      | none => .error (.line number (.notNatural (String.ofList word)))
      | some value => .ok value
  let words := Text.words line
  let a ← field words[0]?
  let b ← field words[1]?
  let c ← field words[2]?
  if words.length ≤ 3 then return (a, b, c) else throw (.line number .trailing)

/-- The bounds that the first line sets; the number of edges is not enforced. -/
def readHeader (line : List Char) : Except Error (Vertex × UInt32) := do
  let (vertices, _, labels) ← readFields 1 line
  if maxGraphVertices < vertices then throw (.line 1 (.tooManyVertices vertices))
  if maxGraphLabels < labels then throw (.line 1 (.tooManyLabels labels))
  return (vertices, labels)

/-- The edge of a line, checked against the bounds; none if the line is blank. -/
def readEdge (vertices : Vertex) (labels : UInt32) (number : Nat) (line : List Char) :
    Except Error (Option Edge) := do
  if line.all Text.isBlank then return none
  let (source, target, label) ← readFields number line
  if vertices ≤ source ∨ vertices ≤ target then throw (.line number (.vertexOutside vertices))
  if labels ≤ label then throw (.line number (.labelOutside label labels))
  return some ⟨source, target, label⟩

namespace Graph

/-- Add the edges of the remaining lines, of which the first has the given number. Edges with a label
    that is not allowed are checked and left out. -/
def readEdges (allowed : UInt32 → Bool) (g : Graph) :
    Nat → List (List UInt8) → Except Error Graph
  | _, [] => .ok g
  | number, line :: lines => do
    let edge? ← readEdge g.vertexCount g.labelCount number (← decodeLine line)
    match edge? with
    | none => g.readEdges allowed (number + 1) lines
    | some edge =>
      let g ← if allowed edge.label then g.addEdge edge else .ok g
      g.readEdges allowed (number + 1) lines

/-- The graph that a text describes, with the edges whose label is allowed. -/
def read (allowed : UInt32 → Bool) (text : List UInt8) : Except Error Graph :=
  match byteLines text with
  | [] => .error (.line 1 .missingHeader)
  | header :: lines => do
    let (vertices, labels) ← readHeader (← decodeLine header)
    (empty vertices labels).readEdges allowed 2 lines

end Graph

end PathQueryIndex
