/-
Module: PathQueryIndex.CanonicalForm
Layer: Core
Purpose: Canonical forms: a colored graph in the numbering of a canonical order, together with its
  binary code, by which forms are compared. The code is a sequence of bit fields. The number of nodes
  and the labels have fixed widths; everything that names a node, or counts nodes, has the width that
  the number of nodes asks for.
Imports: PathQueryIndex.Labeling, PathQueryIndex.BitField, PathQueryIndex.Text.Base64,
  PathQueryIndex.Text.Blank
Main exports: nodeWidth, FormParts, FormParts.encode, FormParts.decode, CanonicalForm,
  CanonicalForm.ofParts, CanonicalForm.ofOrder, CanonicalForm.ofCode, CanonicalForm.text,
  CoreHash.ofBase64
-/
import PathQueryIndex.Labeling
import PathQueryIndex.BitField
import PathQueryIndex.Text.Base64
import PathQueryIndex.Text.Blank

namespace PathQueryIndex

/-- How many bits it takes to name one of `n` nodes. -/
def nodeWidth (n : Nat) : Nat := if n ≤ 1 then 0 else (n - 1).log2 + 1

/-- The identity of a core: the binary code of its canonical form. -/
abbrev CoreHash := List UInt8

namespace CoreHash

/-- The text of a hash. -/
def base64 (h : CoreHash) : String := String.ofList (Base64.encode h)

/-- The hash that a text writes, blanks around it aside. -/
def ofBase64 (text : String) : Except Error CoreHash :=
  match Base64.decode? (Text.trimBlanks text.toList) with
  | some bytes => .ok bytes
  | none => .error (.codec .base64)

end CoreHash

/-- A numbered graph: its source and target, the labels with the number of nodes that carry them, and
    for each node the nodes that it points to. -/
structure FormParts where
  source : Nat
  target : Nat
  labels : List (Nat × Nat)
  rows : List (List Nat)
deriving DecidableEq, Repr, Inhabited

namespace FormParts

/-- The same graph with every row ascending. -/
def sortRows (p : FormParts) : FormParts := { p with rows := p.rows.map sorted }

/-- The fields of the code, each a value and its width. -/
def fields (p : FormParts) : List (Nat × Nat) :=
  let width := nodeWidth p.rows.length
  [(p.rows.length, nodeCountWidth), (p.source, width), (p.target, width),
    (p.labels.length, labelWidth)] ++
  p.labels.flatMap (fun (label, count) => [(label, labelWidth), (count, width)]) ++
  p.rows.flatMap fun row => (row.length, width) :: row.map fun v => (v, width)

/-- Fail if the number of nodes, the number of labels, or a label is too large for its field. -/
def checkLimits (p : FormParts) : Except Error Unit := do
  if maxCanonicalNodes < p.rows.length then throw (.encoding (.nodes p.rows.length))
  if maxCanonicalLabel < p.labels.length then throw (.encoding (.labels p.labels.length))
  if let some (label, _) := p.labels.find? fun (label, _) => maxCanonicalLabel < label then
    throw (.encoding (.label label))

/-- The binary code, padded with zeros to whole bytes. -/
def encode (p : FormParts) : Except Error (List UInt8) := do
  p.checkLimits
  let bits := sumOf (p.fields.map Prod.snd)
  return (← (BitWriter.ofBits bits).writeAll p.fields).bytes

end FormParts

/-- A computation that reads bit fields one after the other. -/
abbrev FieldReader := StateT BitReader (Except Error)

namespace FieldReader

/-- The value of the next field. -/
def field (width : Nat) : FieldReader Nat := fun r => r.read width

/-- The same reading several times over. -/
def times {α : Type} : Nat → FieldReader α → FieldReader (List α)
  | 0, _ => pure []
  | n + 1, item => do
    let x ← item
    let xs ← times n item
    return x :: xs

/-- The graph that the next fields write. -/
def parts : FieldReader FormParts := do
  let nodes ← field nodeCountWidth
  let width := nodeWidth nodes
  let source ← field width
  let target ← field width
  let classes ← field labelWidth
  let labels ← times classes do
    let label ← field labelWidth
    let count ← field width
    return (label, count)
  let rows ← times nodes do
    let degree ← field width
    times degree (field width)
  return { source, target, labels, rows }

end FieldReader

/-- The graph that a code writes; less than a byte may be left behind it. -/
def FormParts.decode (code : List UInt8) : Except Error FormParts := do
  let (p, rest) ← FieldReader.parts (BitReader.ofBytes code)
  if 8 ≤ rest.remaining then throw (.codec (.trailingBits rest.remaining))
  return p

/-- A numbered graph with ascending rows, and its code. -/
structure CanonicalForm extends FormParts where
  code : CoreHash
  encoded : toFormParts.encode = .ok code

namespace CanonicalForm

/-- The form of a numbered graph, if its code has room for it. -/
def ofParts (p : FormParts) : Except Error CanonicalForm :=
  match h : p.sortRows.encode with
  | .ok code => .ok ⟨p.sortRows, code, h⟩
  | .error e => .error e

/-- The form that a code writes. Its own code may differ, since rows are sorted again. -/
def ofCode (code : List UInt8) : Except Error CanonicalForm := do
  ofParts (← FormParts.decode code)

/-- Fail unless the entries are different nodes below `count` and none of those seen. -/
def checkOrder (count : Nat) (seen : List Nat) : List Nat → Except Error Unit
  | [] => .ok ()
  | v :: vs =>
    if count ≤ v then .error (.labeling (.unknownNode v))
    else if v ∈ seen then .error (.labeling (.repeatedNode v))
    else checkOrder count (v :: seen) vs

/-- A colored graph in the numbering of an order of its nodes: the node at place `i` becomes `i`. -/
def partsOfOrder (g : ColoredGraph) (order : List Nat) : FormParts :=
  let place := placesOf g.nodeCount order
  let rows := g.rows.toArray
  { source := place.getD g.source 0
    target := place.getD g.target 0
    labels := g.labelCounts
    rows := order.map fun v => (rows.getD v []).map fun u => place.getD u 0 }

/-- The form of a colored graph in the numbering of an order, which has to list every node once. -/
def ofOrder (g : ColoredGraph) (order : List Nat) : Except Error CanonicalForm := do
  if order.length ≠ g.nodeCount then
    throw (.labeling (.size order.length g.nodeCount))
  checkOrder g.nodeCount [] order
  ofParts (partsOfOrder g order)

/-- A readable form: `s=0,t=1,l0=1,e0=\x7b2\x7d` for source, target, the count of a label and the row
    of a node. -/
def text (f : CanonicalForm) : String :=
  let labels := f.labels.map fun (label, count) => s!"l{label}={count}"
  let rows := f.rows.zipIdx.map fun (row, i) =>
    s!"e{i}=\x7b" ++ ",".intercalate (row.map toString) ++ "\x7d"
  ",".intercalate ([s!"s={f.source}", s!"t={f.target}"] ++ labels ++ rows)

/-- Forms are the same if their codes are. -/
instance : BEq CanonicalForm := ⟨fun a b => a.code == b.code⟩

end CanonicalForm

end PathQueryIndex
