/-
Module: PathQueryIndex.Command
Layer: Application
Purpose: What a run is asked to do: build an index and show or store it, count what is in it, compare
  it with an export, or canonicalize a query. An argument that is absent leaves the choice to the
  settings.
Imports: PathQueryIndex.Settings
Main exports: IndexRequest, BuildTarget, Command, Invocation, LabelList.parse, IndexRequest.options
-/
import PathQueryIndex.Settings

namespace PathQueryIndex

/-- The graph to index, and how. -/
structure IndexRequest where
  graph : String
  depth : Option Nat
  cores : Bool
  workers : Option Nat
  maxIntersections : Option Nat
  labels : Option String
deriving DecidableEq, Repr

/-- Where a built index goes, and how it looks. -/
structure BuildTarget where
  output : Option String
  format : Option OutputFormat
  sort : Bool
  exported : Option String
deriving DecidableEq, Repr

/-- The things to do. -/
inductive Command where
  | build (request : IndexRequest) (target : BuildTarget)
  | stats (request : IndexRequest)
  | verify (request : IndexRequest) (input : String)
  | canon (query : String) (isCore : Bool)
deriving DecidableEq, Repr

/-- A command with what holds for any command. -/
structure Invocation where
  verbose : Bool
  jsonMode : Bool
  settingsFile : Option String
  command : Command
deriving DecidableEq, Repr

/-- The labels of a list with commas; empty places in it do not count. -/
def parseLabels (text : String) : Except Error (OrderedSet UInt32) := do
  let parts := ((Text.pieces (· == ',') text.toList).map Text.trimBlanks).filter (!·.isEmpty)
  let labels ← parts.mapM fun part =>
    match Text.word32? part with
    | some label => .ok label
    | none => .error (.argument (.labelId (String.ofList part)))
  return .ofList labels

namespace Settings

/-- The number of workers, where none stands for one on each processor. -/
def resolveWorkers (workers processors : Nat) : Nat := if workers = 0 then processors else workers

/-- The options that settings and arguments make together. An argument goes before the setting, and
    cores are computed if either asks for them. -/
def options (s : Settings) (r : IndexRequest) (processors : Nat) : Except Error Options := do
  let options : Options :=
    { depth := r.depth.getD s.depth
      cores := r.cores || s.cores
      maxIntersections := r.maxIntersections.or s.maxIntersections
      threads := resolveWorkers (r.workers.getD s.workers) processors
      timeout := s.timeout }
  options.validate
  return options

end Settings

end PathQueryIndex
