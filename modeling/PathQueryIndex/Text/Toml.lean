/-
Module: PathQueryIndex.Text.Toml
Layer: Core
Purpose: Documents in a part of the TOML notation: tables of keys under headers in brackets, with
  integers, truth values and quoted texts as values, and comments. A document is read line by line, and
  no key or table may occur twice in it. Fractions, dates and nested values are not read, since no
  setting has such a value.
Imports: PathQueryIndex.Text.Blank, PathQueryIndex.Text.Numeral
Main exports: Toml.Value, Toml.Line, Toml.Table, Toml.Document, Toml.Document.parse?
-/
import PathQueryIndex.Text.Blank
import PathQueryIndex.Text.Numeral

namespace PathQueryIndex.Text.Toml

/-- The value of a key. -/
inductive Value where
  | integer (n : Int)
  | bool (b : Bool)
  | text (s : String)
deriving DecidableEq, Repr

/-- What a line says. -/
inductive Line where
  | blank
  | header (table : String)
  | entry (key : String) (value : Value)
deriving DecidableEq, Repr

/-- Keys and their values, in the order of the lines. -/
abbrev Table := List (String × Value)

/-- The keys before the first header, and the tables with their names. -/
structure Document where
  root : Table
  tables : List (String × Table)

/-! ### Lines -/

/-- Only blanks and tabulators may stand around the parts of a line. -/
def isSpace (c : Char) : Bool := c == ' ' || c == '\t'

/-- Drop the spaces at the front. -/
def skip (cs : List Char) : List Char := cs.dropWhile isSpace

/-- A character that may stand in a comment or a quoted text: no control character but the tabulator. -/
def isPrintable (c : Char) : Bool := c == '\t' || (0x20 ≤ c.toNat && c.toNat != 0x7F)

/-- Whether nothing but spaces and a comment follows. -/
def endsLine (cs : List Char) : Bool :=
  match skip cs with
  | [] => true
  | '#' :: comment => comment.all isPrintable
  | _ => false

/-- A character of a key without quotes. -/
def isKeyChar (c : Char) : Bool := c.isAlphanum || c == '_' || c == '-'

/-- A key at the front, and what follows it. -/
def key? (cs : List Char) : Option (String × List Char) :=
  match cs.span isKeyChar with
  | ([], _) => none
  | (key, rest) => some (String.ofList key, rest)

/-! ### Numbers -/

/-- The digits of a number whose underscores each stand between two digits. -/
def ungroup? (cs : List Char) : Option (List Char) :=
  let groups := pieces (· == '_') cs
  if groups.any (·.isEmpty) then none else some groups.flatten

/-- The value of a digit below `base`. -/
def digit? (base : Nat) (c : Char) : Option Nat :=
  let value :=
    if c.isDigit then c.toNat - '0'.toNat
    else if 'a' ≤ c && c ≤ 'f' then c.toNat - 'a'.toNat + 10
    else if 'A' ≤ c && c ≤ 'F' then c.toNat - 'A'.toNat + 10
    else base
  if value < base then some value else none

/-- The number that some digits write; there has to be one digit at least. -/
def number? (base : Nat) (cs : List Char) : Option Nat :=
  if cs.isEmpty then none
  else cs.foldlM (fun n c => (digit? base c).map fun d => base * n + d) 0

/-- A number with grouped digits. -/
def grouped? (base : Nat) (cs : List Char) : Option Nat := ungroup? cs >>= number? base

/-- A decimal number with grouped digits, which starts with a zero only if it is one. -/
def decimal? (cs : List Char) : Option Nat :=
  match cs with
  | '0' :: _ :: _ => none
  | cs => grouped? 10 cs

/-- An integer. Only decimal ones have a sign. -/
def integer? (cs : List Char) : Option Int :=
  match cs with
  | '0' :: 'x' :: cs => (grouped? 16 cs).map Int.ofNat
  | '0' :: 'o' :: cs => (grouped? 8 cs).map Int.ofNat
  | '0' :: 'b' :: cs => (grouped? 2 cs).map Int.ofNat
  | '+' :: cs => (decimal? cs).map Int.ofNat
  | '-' :: cs => (decimal? cs).map fun n => -Int.ofNat n
  | cs => (decimal? cs).map Int.ofNat

/-! ### Quoted texts -/

/-- The character with a code of `n` hexadecimal digits, and the number `n`. -/
def codePoint? (n : Nat) (cs : List Char) : Option (Char × Nat) := do
  let digits := cs.take n
  if digits.length < n then none
  let code ← number? 16 digits
  if code.isValidChar then some (Char.ofNat code, n) else none

/-- The character that a mark behind a backslash stands for, and how many of the characters behind the
    mark belong to it. -/
def escaped? (mark : Char) (cs : List Char) : Option (Char × Nat) :=
  match mark with
  | 'b' => some (Char.ofNat 0x08, 0)
  | 't' => some ('\t', 0)
  | 'n' => some ('\n', 0)
  | 'f' => some (Char.ofNat 0x0C, 0)
  | 'r' => some ('\r', 0)
  | 'e' => some (Char.ofNat 0x1B, 0)
  | '"' => some ('"', 0)
  | '\\' => some ('\\', 0)
  | 'x' => codePoint? 2 cs
  | 'u' => codePoint? 4 cs
  | 'U' => codePoint? 8 cs
  | _ => none

/-- The text up to the closing quote, and what follows the quote. -/
def quoted? (cs : List Char) : Option (List Char × List Char) :=
  match cs with
  | [] => none
  | '"' :: rest => some ([], rest)
  | '\\' :: mark :: rest => do
    let (c, used) ← escaped? mark rest
    let (text, rest) ← quoted? (rest.drop used)
    return (c :: text, rest)
  | c :: rest => do
    if !isPrintable c || c == '\\' then none
    let (text, rest) ← quoted? rest
    return (c :: text, rest)
termination_by cs.length
decreasing_by all_goals simp only [List.length_drop, List.length_cons]; omega

/-- The text up to the closing apostrophe, in which nothing is escaped, and what follows it. -/
def literal? (cs : List Char) : Option (List Char × List Char) :=
  match cs.span (· != '\'') with
  | (text, _ :: rest) => if text.all isPrintable then some (text, rest) else none
  | (_, []) => none

/-! ### Documents -/

/-- The value at the front, and what follows it. -/
def value? (cs : List Char) : Option (Value × List Char) :=
  match cs with
  | '"' :: cs => (quoted? cs).map fun (text, rest) => (.text (String.ofList text), rest)
  | '\'' :: cs => (literal? cs).map fun (text, rest) => (.text (String.ofList text), rest)
  | cs =>
    let (word, rest) := cs.span fun c => !isSpace c && c != '#'
    if word == ['t', 'r', 'u', 'e'] then some (.bool true, rest)
    else if word == ['f', 'a', 'l', 's', 'e'] then some (.bool false, rest)
    else (integer? word).map fun n => (.integer n, rest)

/-- What a line says, if anything. -/
def Line.parse? (cs : List Char) : Option Line :=
  if endsLine cs then some .blank
  else
    match skip cs with
    | '[' :: cs => do
      let (table, cs) ← key? (skip cs)
      let ']' :: cs := skip cs | none
      if endsLine cs then some (.header table) else none
    | cs => do
      let (key, cs) ← key? cs
      let '=' :: cs := skip cs | none
      let (value, cs) ← value? (skip cs)
      if endsLine cs then some (.entry key value) else none

/-- Put a key into a table, unless it is there already. -/
def Table.insert? (t : Table) (key : String) (value : Value) : Option Table :=
  if (t.lookup key).isSome then none else some (t ++ [(key, value)])

namespace Document

/-- The document without lines. -/
def empty : Document := ⟨[], []⟩

/-- Go on with another line. A key belongs to the last header before it. -/
def addLine? (d : Document) : Line → Option Document
  | .blank => some d
  | .header table =>
    if (d.tables.lookup table).isSome then none
    else some { d with tables := d.tables ++ [(table, [])] }
  | .entry key value =>
    match d.tables.getLast? with
    | none => do return { d with root := ← Table.insert? d.root key value }
    | some (name, table) => do
      let table ← Table.insert? table key value
      return { d with tables := d.tables.dropLast ++ [(name, table)] }

/-- A carriage return belongs to the line feed behind it. -/
def lines (cs : List Char) : List (List Char) :=
  let parts := pieces (· == '\n') cs
  let complete := parts.dropLast.map fun line =>
    if line.getLast? == some '\r' then line.dropLast else line
  complete ++ parts.getLast?.toList

/-- The document that a text writes; a mark of the byte order may precede it. -/
def parse? (text : String) : Option Document := do
  let cs := match text.toList with
    | c :: cs => if c.toNat == 0xFEFF then cs else c :: cs
    | [] => []
  (← (lines cs).mapM Line.parse?).foldlM addLine? empty

end Document

end PathQueryIndex.Text.Toml
