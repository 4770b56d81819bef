/-
Module: PathQueryIndex.Settings
Layer: Application
Purpose: What a run does unless its arguments say otherwise. Every setting has a value to start with;
  a file in the notation of TOML changes some of them, and variables of the environment change them
  again. A file with an unknown table or key, or with a value of the wrong kind, is refused.
Imports: PathQueryIndex.Index.Report, PathQueryIndex.Text.Toml
Main exports: LogFormat, Settings, Settings.ofToml, Settings.withEnvironment
-/
import PathQueryIndex.Index.Report
import PathQueryIndex.Text.Toml

namespace PathQueryIndex

open Text (Toml.Value Toml.Document)

/-- The ways to write a log. -/
inductive LogFormat where
  | text
  | json
deriving DecidableEq, Repr

/-- What a run does by default. No limit on intersections and no timeout means that there is none, and
    no workers means one for every processor. -/
structure Settings where
  depth : Nat
  cores : Bool
  workers : Nat
  maxIntersections : Option Nat
  timeout : Option Nat
  logFormat : LogFormat
  logFilter : Option String
  outputFormat : OutputFormat
  sort : Bool
deriving DecidableEq, Repr

namespace LogFormat

/-- The name of a format. -/
def name : LogFormat → String
  | text => "text"
  | json => "json"

/-- The format with a name. -/
def ofName? : String → Option LogFormat
  | "text" => some text
  | "json" => some json
  | _ => none

theorem ofName?_name (f : LogFormat) : ofName? f.name = some f := by cases f <;> rfl

end LogFormat

namespace OutputFormat

/-- The name of a format. -/
def name : OutputFormat → String
  | listing => "listing"
  | table => "table"
  | json => "json"

/-- The format with a name. -/
def ofName? : String → Option OutputFormat
  | "listing" => some listing
  | "table" => some table
  | "json" => some json
  | _ => none

theorem ofName?_name (f : OutputFormat) : ofName? f.name = some f := by cases f <;> rfl

end OutputFormat

/-- The numbers of a setting or an argument stay below this bound. -/
def numberBound : Nat := UInt64.size

namespace Settings

/-- The settings without a file. -/
def standard : Settings where
  depth := Options.defaultDepth
  cores := false
  workers := 1
  maxIntersections := none
  timeout := none
  logFormat := .text
  logFilter := none
  outputFormat := .listing
  sort := false

/-! ### Settings from a file -/

/-- A number that is not negative and not too great. -/
def number? : Toml.Value → Option Nat
  | .integer (.ofNat n) => if n < numberBound then some n else none
  | _ => none

/-- A truth value. -/
def bool? : Toml.Value → Option Bool
  | .bool b => some b
  | _ => none

/-- A text. -/
def text? : Toml.Value → Option String
  | .text s => some s
  | _ => none

/-- Change the setting with a key in a table. -/
def set? (s : Settings) (table key : String) (v : Toml.Value) : Option Settings :=
  match table, key with
  | "index", "k" => do return { s with depth := ← number? v }
  | "index", "cores" => do return { s with cores := ← bool? v }
  | "index", "threads" => do return { s with workers := ← number? v }
  | "index", "intersections" => do return { s with maxIntersections := some (← number? v) }
  | "index", "oracle_timeout_ms" => do return { s with timeout := some (← number? v) }
  | "logging", "format" => do return { s with logFormat := ← LogFormat.ofName? (← text? v) }
  | "logging", "filter" => do return { s with logFilter := some (← text? v) }
  | "output", "format" => do return { s with outputFormat := ← OutputFormat.ofName? (← text? v) }
  | "output", "sort" => do return { s with sort := ← bool? v }
  | _, _ => none

/-- The tables that a file may have. -/
def tables : List String := ["index", "logging", "output"]

/-- Change the settings of a document; every key has to be in a known table. -/
def ofDocument? (d : Toml.Document) : Option Settings :=
  if !d.root.isEmpty || d.tables.any (fun (table, _) => !tables.contains table) then none
  else
    d.tables.foldlM (fun s (table, entries) =>
      entries.foldlM (fun s (key, value) => s.set? table key value) s) standard

/-- The settings of a file. -/
def ofToml (text : String) : Except Error Settings :=
  match Toml.Document.parse? text >>= ofDocument? with
  | some s => .ok s
  | none => .error (.codec .config)

/-! ### Settings from the environment -/

/-- The variable with the number of workers. -/
def workersVariable : String := "CPQINDEX_THREADS"

/-- The variable with the format of the log. -/
def logFormatVariable : String := "CPQINDEX_LOG_FORMAT"

/-- Set the number of workers. -/
def withWorkers (s : Settings) (value : String) : Except Error Settings :=
  match Text.naturalBelow? numberBound (Text.trimBlanks value.toList) with
  | some n => .ok { s with workers := n }
  | none => .error (.argument (.threadsSetting workersVariable value))

/-- Set the format of the log; capital letters of the alphabet count as small ones. -/
def withLogFormat (s : Settings) (value : String) : Except Error Settings :=
  let name := String.ofList ((Text.trimBlanks value.toList).map Char.toLower)
  match LogFormat.ofName? name with
  | some f => .ok { s with logFormat := f }
  | none => .error (.argument (.logFormat name))

/-- Change the settings that the environment has variables for. -/
def withEnvironment (s : Settings) (lookup : String → Option String) : Except Error Settings := do
  let s ← match lookup workersVariable with
    | some value => s.withWorkers value
    | none => .ok s
  match lookup logFormatVariable with
  | some value => s.withLogFormat value
  | none => return s

end Settings

end PathQueryIndex
