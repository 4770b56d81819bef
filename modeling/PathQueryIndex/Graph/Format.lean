/-
Module: PathQueryIndex.Graph.Format
Layer: Core
Purpose: The format of graph texts, apart from how they are read. Bytes are divided into lines, a line is the
  encoding of some characters, and the characters are words with blanks between them. The first line is three
  numbers within the limits; each further one is blank, or it is an edge within the bounds of the first line.
Imports: PathQueryIndex.Graph, PathQueryIndex.Text.Blank
Main exports: Text.Lines, Text.Encodes, Text.Words, Text.IsWord32, Text.HoldsThree, Graph.HeaderLine,
  Graph.EdgeLine, Graph.GoodLine, Graph.WellFormed, Graph.FirstOffence, Graph.Reports
-/
import PathQueryIndex.Graph
import PathQueryIndex.Text.Blank

namespace PathQueryIndex

namespace Text

/-- The lines of some bytes. Every line feed ends a line, and a carriage return right before it belongs to the
    end of the line. Bytes behind the last line feed are a line too, as they stand. -/
inductive Lines : List UInt8 → List (List UInt8) → Prop where
  | nil : Lines [] []
  | last {line : List UInt8} : line ≠ [] → 0x0A ∉ line → Lines line [line]
  | feed {line bytes : List UInt8} {lines : List (List UInt8)} :
      0x0A ∉ line → line.getLast? ≠ some 0x0D → Lines bytes lines →
        Lines (line ++ 0x0A :: bytes) (line :: lines)
  | returnFeed {line bytes : List UInt8} {lines : List (List UInt8)} :
      0x0A ∉ line → Lines bytes lines → Lines (line ++ 0x0D :: 0x0A :: bytes) (line :: lines)

/-- The bytes are the characters in UTF-8. -/
def Encodes (text : List Char) (bytes : List UInt8) : Prop :=
  text.flatMap String.utf8EncodeChar = bytes

/-- The words of some characters: stretches without a blank, with blanks between them and around them. -/
inductive Words : List Char → List (List Char) → Prop where
  | nil : Words [] []
  | blank {c : Char} {cs : List Char} {ws : List (List Char)} :
      isBlank c = true → Words cs ws → Words (c :: cs) ws
  | word {w cs : List Char} {ws : List (List Char)} :
      w ≠ [] → (∀ c ∈ w, isBlank c = false) → (∀ c ∈ cs.head?, isBlank c = true) → Words cs ws →
        Words (w ++ cs) (w :: ws)

/-- The word is a number of 32 bits: decimal digits, perhaps with a plus sign before them. -/
def IsWord32 (word : List Char) (n : UInt32) : Prop :=
  ∃ digits, (word = digits ∨ word = '+' :: digits) ∧ digits ≠ [] ∧ (∀ c ∈ digits, c.isDigit = true) ∧
    Nat.ofDigitChars 10 digits 0 = n.toNat

/-- The characters are three numbers of 32 bits and blanks. -/
def HoldsThree (text : List Char) (a b c : UInt32) : Prop :=
  ∃ x y z, Words text [x, y, z] ∧ IsWord32 x a ∧ IsWord32 y b ∧ IsWord32 z c

end Text

namespace Graph

/-- The line announces the numbers of vertices, edges and labels, where that of edges does not matter. -/
def HeaderLine (line : List UInt8) (vertices labels : UInt32) : Prop :=
  ∃ text edges, Text.Encodes text line ∧ Text.HoldsThree text vertices edges labels ∧
    vertices.toNat ≤ 50000000 ∧ labels.toNat ≤ 1000000

/-- The line is blank. -/
def BlankLine (line : List UInt8) : Prop :=
  ∃ text, Text.Encodes text line ∧ ∀ c ∈ text, Text.isBlank c = true

/-- The line is an edge between two of the vertices, with one of the labels. -/
def EdgeLine (vertices labels : UInt32) (line : List UInt8) (e : Edge) : Prop :=
  ∃ text, Text.Encodes text line ∧ Text.HoldsThree text e.source e.target e.label ∧
    (e.source < vertices ∧ e.target < vertices) ∧ e.label < labels

/-- The line may stand behind the first one. -/
def GoodLine (vertices labels : UInt32) (line : List UInt8) : Prop :=
  BlankLine line ∨ ∃ e, EdgeLine vertices labels line e

/-- The bytes are a graph text: its first line announces the given numbers, and the others are good. -/
def WellFormed (bytes : List UInt8) (vertices labels : UInt32) (lines : List (List UInt8)) : Prop :=
  (∃ header, Text.Lines bytes (header :: lines) ∧ HeaderLine header vertices labels) ∧
    ∀ line ∈ lines, GoodLine vertices labels line

/-- The first line that keeps the bytes from being a graph text, with its number, counted from one. There is
    no such line if there is no line at all; then it is the first one that is missing. -/
inductive FirstOffence (bytes : List UInt8) : Nat → Option (List UInt8) → Prop where
  | missing : Text.Lines bytes [] → FirstOffence bytes 1 none
  | header {header : List UInt8} {lines : List (List UInt8)} :
      Text.Lines bytes (header :: lines) → (∀ vertices labels, ¬ HeaderLine header vertices labels) →
        FirstOffence bytes 1 (some header)
  | line {header line : List UInt8} {before after : List (List UInt8)} {vertices labels : UInt32} :
      Text.Lines bytes (header :: (before ++ line :: after)) → HeaderLine header vertices labels →
        (∀ x ∈ before, GoodLine vertices labels x) → ¬ GoodLine vertices labels line →
          FirstOffence bytes (before.length + 2) (some line)

/-- The error tells what is wrong with a line: that it is no text in UTF-8, or else a fault, with the number of
    the line. -/
inductive Reports : Nat → Option (List UInt8) → Error → Prop where
  | missing : Reports 1 none (.line 1 .missingHeader)
  | encoding {n : Nat} {line : List UInt8} : (∀ text, ¬ Text.Encodes text line) →
      Reports n (some line) (.io "stream did not contain valid UTF-8")
  | fault {n : Nat} {line : List UInt8} {text : List Char} (fault : LineFault) :
      Text.Encodes text line → Reports n (some line) (.line n fault)

/-- The graph with its edges of some labels only. -/
def restrict (allowed : UInt32 → Bool) (g : Graph) : Graph where
  vertexCount := g.vertexCount
  labelCount := g.labelCount
  edges := g.edges.filter fun e => allowed e.label
  inBounds := fun e he => g.inBounds e (OrderedSet.mem_filter.1 he).1

end Graph

end PathQueryIndex
