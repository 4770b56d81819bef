/-
Module: PathQueryIndex.Error
Layer: Core
Purpose: Every way in which reading a graph, a query or an export, canonicalizing or building can
  fail. An error is its cause; the wording is computed from the cause in one place.
Imports: PathQueryIndex.Pair, PathQueryIndex.Query.Token
Main exports: ArgumentFault, LineFault, EncodingLimit, LabelingFault, StateFault, CodecFault, Error,
  Error.message
-/
import PathQueryIndex.Pair
import PathQueryIndex.Query.Token

namespace PathQueryIndex

/-- An argument outside its range. -/
inductive ArgumentFault where
  | emptySequence
  | fieldWidth (width : Nat)
  | edgeOutside (source target bound : Vertex)
  | labelOutside (label bound : UInt32)
  | query (fault : QueryFault)
  | depth
  | threads
  | workers
  | intersectionLimit (limit : Nat)
  | labelId (part : String)
  | logFormat (name : String)
  | threadsSetting (name value : String)
  | fileSize (size limit : Nat)
  | configSize (size limit : Nat)
  | noLayers
deriving DecidableEq, Repr

/-- The widest field that can be written or read at once. -/
def maxFieldWidth : Nat := 32

def ArgumentFault.message : ArgumentFault → String
  | .emptySequence => "label sequence must not be empty"
  | .fieldWidth width => s!"field width {width} exceeds {maxFieldWidth} bits"
  | .edgeOutside source target bound =>
      s!"edge ({source}, {target}) references a vertex outside 0..{bound}"
  | .labelOutside label bound => s!"label {label} outside 0..{bound}"
  | .query fault => fault.message
  | .depth => "k must be at least 1"
  | .threads => "at least one labeling thread is required"
  | .workers => "labeling pool needs at least one thread"
  | .intersectionLimit limit => s!"intersection limit must be at least 2, got {limit}"
  | .labelId part => s!"Invalid label id '{part}'"
  | .logFormat name => s!"unknown log format '{name}'. Use: text, json"
  | .threadsSetting name value => s!"{name} must be a non-negative integer, got '{value}'"
  | .fileSize size limit => s!"File size {size} bytes exceeds maximum allowed {limit} bytes"
  | .configSize size limit =>
      s!"Config file size {size} bytes exceeds maximum allowed {limit} bytes"
  | .noLayers => "partition has no layers"

/-- The most vertices a graph text may announce. -/
def maxGraphVertices : UInt32 := 50000000

/-- The most labels a graph text may announce. -/
def maxGraphLabels : UInt32 := 1000000

/-- What is wrong with a line of a graph text. -/
inductive LineFault where
  | missingHeader
  | threeIntegers
  | notNatural (word : String)
  | trailing
  | tooManyVertices (count : UInt32)
  | tooManyLabels (count : UInt32)
  | vertexOutside (bound : Vertex)
  | labelOutside (label bound : UInt32)
deriving DecidableEq, Repr

def LineFault.message : LineFault → String
  | .missingHeader => "missing header line"
  | .threeIntegers => "expected three integers"
  | .notNatural word => s!"'{word}' is not a non-negative integer"
  | .trailing => "trailing data after three integers"
  | .tooManyVertices count => s!"vertex count {count} exceeds {maxGraphVertices}"
  | .tooManyLabels count => s!"label count {count} exceeds {maxGraphLabels}"
  | .vertexOutside bound => s!"vertex out of range 0..{bound}"
  | .labelOutside label bound => s!"label {label} out of range 0..{bound}"

/-- Width of the node count in a binary canonical form. -/
def nodeCountWidth : Nat := 10

/-- Width of a label id and of the number of labels in a binary canonical form. -/
def labelWidth : Nat := 5

/-- The largest label id of a binary canonical form, and the most labels it can list. -/
def maxCanonicalLabel : Nat := (1 <<< labelWidth) - 1

/-- The most nodes of a binary canonical form. -/
def maxCanonicalNodes : Nat := (1 <<< nodeCountWidth) - 1

/-- A canonical form that its binary fields cannot hold. -/
inductive EncodingLimit where
  | nodes (count : Nat)
  | labels (count : Nat)
  | label (id : Nat)
deriving DecidableEq, Repr

def EncodingLimit.message : EncodingLimit → String
  | .nodes count => s!"{count} nodes exceed the {nodeCountWidth}-bit vertex field"
  | .labels count => s!"{count} label classes exceed the {labelWidth}-bit label field"
  | .label id => s!"label id {id} exceeds {maxCanonicalLabel}"

/-- A labeling request or its answer that makes no sense. -/
inductive LabelingFault where
  | neighbour (node other : Nat)
  | colorEntry (entry : Int)
  | openClass
  | uncolored
  | noLeaf
  | size (entries nodes : Nat)
  | unknownNode (node : Nat)
  | repeatedNode (node : Nat)
  | refused (reason : String)
deriving DecidableEq, Repr

def LabelingFault.message : LabelingFault → String
  | .neighbour node other => s!"node {node} has out-of-range neighbour {other}"
  | .colorEntry entry => s!"color entry {entry} is out of range or repeated"
  | .openClass => "color encoding ends inside a class"
  | .uncolored => "color encoding leaves nodes uncolored"
  | .noLeaf => "search produced no leaf"
  | .size entries nodes => s!"relabeling has {entries} entries for {nodes} nodes"
  | .unknownNode node => s!"relabeling names unknown node {node}"
  | .repeatedNode node => s!"relabeling places node {node} twice"
  | .refused reason => reason

/-- A construction that cannot go on. -/
inductive StateFault where
  | idsExhausted
  | emptyRun (layer : Nat)
  | noBlock (segment layer : Nat)
  | exportDiffers (exported graph : String)
deriving DecidableEq, Repr

def StateFault.message : StateFault → String
  | .idsExhausted => "segment id space exhausted"
  | .emptyRun layer => s!"empty segment run at layer {layer}"
  | .noBlock segment layer => s!"segment {segment} of layer {layer} has no block"
  | .exportDiffers exported graph =>
      s!"Export {exported} does not match the index built from {graph}"

/-- The most blocks that an export may announce. -/
def maxListedBlocks : UInt64 := 10000000

/-- The most pairs that an export may announce. -/
def maxListedPairs : UInt64 := 100000000

/-- Bytes or text that do not follow their format. -/
inductive CodecFault where
  | base64
  | trailingBits (count : Nat)
  | tooShort
  | tooShortForHeader
  | header
  | fileFormat
  | version
  | blockCount (count : UInt64)
  | pairCount (count : UInt64)
  | data
  | checksum (expected found : UInt64)
  | depth
  | blocks
  | pairs
  | config
deriving DecidableEq, Repr

def CodecFault.message : CodecFault → String
  | .base64 => "invalid base64 core"
  | .trailingBits count => s!"{count} trailing bits after canonical form"
  | .tooShort => "Data too short"
  | .tooShortForHeader => "Data too short for header"
  | .header => "Header"
  | .fileFormat => "Invalid file format"
  | .version => "Unsupported file version"
  | .blockCount count => s!"Block count {count} exceeds maximum allowed {maxListedBlocks}"
  | .pairCount count => s!"Pair count {count} exceeds maximum allowed {maxListedPairs}"
  | .data => "Data"
  | .checksum expected found => s!"Checksum mismatch: expected {expected}, got {found}"
  | .depth => "Depth mismatch"
  | .blocks => "Block count mismatch"
  | .pairs => "Pair count mismatch"
  | .config => "Config"

/-- Everything that can go wrong. -/
inductive Error where
  | argument (fault : ArgumentFault)
  | line (number : Nat) (fault : LineFault)
  | io (description : String)
  | encoding (limit : EncodingLimit)
  | bitOverflow (capacity requested : Nat)
  | labeling (fault : LabelingFault)
  | timeout (milliseconds : Nat)
  | cancelled
  | shutDown
  | state (fault : StateFault)
  | codec (fault : CodecFault)
deriving DecidableEq, Repr

/-- A time in milliseconds: whole seconds, with the shortest fraction, from one second on; nothing
    but a zero has the smallest unit. -/
def durationText (milliseconds : Nat) : String :=
  let seconds := milliseconds / 1000
  let rest := milliseconds % 1000
  if seconds == 0 then
    if rest == 0 then "0ns" else s!"{rest}ms"
  else if rest == 0 then s!"{seconds}s"
  else
    let digits := Text.numeral (rest + 1000)
    let fraction := (digits.drop 1).reverse.dropWhile (· == '0') |>.reverse
    s!"{seconds}." ++ String.ofList fraction ++ "s"

/-- The whole text of an error. -/
def Error.message : Error → String
  | .argument fault => "Invalid argument: " ++ fault.message
  | .line number fault => s!"Format error on line {number}: " ++ fault.message
  | .io description => "I/O error: " ++ description
  | .encoding limit => "Encoding limit exceeded: " ++ limit.message
  | .bitOverflow capacity requested =>
      s!"Bit buffer overflow: capacity {capacity} bits, write ends at bit {requested}"
  | .labeling fault => "Labeling oracle failure: " ++ fault.message
  | .timeout milliseconds => "Labeling oracle timed out after " ++ durationText milliseconds
  | .cancelled => "Labeling request cancelled"
  | .shutDown => "Labeling pool has shut down"
  | .state fault => "Invalid state: " ++ fault.message
  | .codec fault => "Serialization error: " ++ fault.message

/-- The labels as a sequence; there has to be one. -/
def LabelSequence.ofLabels (labels : List Label) : Except Error LabelSequence :=
  if h : labels = [] then .error (.argument .emptySequence) else .ok ⟨labels, h⟩

end PathQueryIndex
