/-
Module: PathQueryIndex.Command.Flag
Layer: Application
Purpose: The flags of the command line: how each is spelled, what kind of value follows it, and which
  command knows it.
Imports: PathQueryIndex.Settings
Main exports: Flag, ValueKind, Flag.short?, Flag.long?, Flag.kind, CommandName, CommandName.flags
-/
import PathQueryIndex.Settings

namespace PathQueryIndex

/-- The flags. -/
inductive Flag where
  | verbose
  | jsonMode
  | config
  | data
  | depth
  | cores
  | threads
  | intersections
  | labels
  | output
  | format
  | sort
  | exported
  | input
  | core
deriving DecidableEq, Repr

/-- What a flag takes. -/
inductive ValueKind where
  | none
  | path
  | text
  | number
  | format
deriving DecidableEq, Repr

namespace ValueKind

/-- A number of the command line, with an optional plus sign. -/
def number? (value : String) : Option Nat := Text.naturalBelow? numberBound value.toList

/-- Whether a value is of a kind. A path cannot be empty. -/
def accepts : ValueKind → String → Bool
  | none, _ => true
  | path, value => value != ""
  | text, _ => true
  | number, value => (number? value).isSome
  | format, value => (OutputFormat.ofName? value).isSome

end ValueKind

namespace Flag

/-- The letter of a flag. -/
def short? : Flag → Option Char
  | verbose => some 'v'
  | config => some 'c'
  | data => some 'd'
  | depth => some 'k'
  | threads => some 't'
  | output => some 'o'
  | format => some 'f'
  | input => some 'i'
  | _ => none

/-- The name of a flag; the depth has a letter only. -/
def long? : Flag → Option String
  | verbose => some "verbose"
  | jsonMode => some "json-mode"
  | config => some "config"
  | data => some "data"
  | depth => none
  | cores => some "cores"
  | threads => some "threads"
  | intersections => some "intersections"
  | labels => some "labels"
  | output => some "output"
  | format => some "format"
  | sort => some "sort"
  | exported => some "export"
  | input => some "input"
  | core => some "core"

/-- What follows a flag. -/
def kind : Flag → ValueKind
  | verbose | jsonMode | cores | sort | core => .none
  | config | data | output | exported | input => .path
  | depth | threads | intersections => .number
  | labels => .text
  | format => .format

/-- The flags that any command knows. -/
def common : List Flag := [verbose, jsonMode, config]

/-- The flags about a graph and its index. -/
def ofIndex : List Flag := [data, depth, cores, threads, intersections, labels]

end Flag

/-- The names of the commands. -/
inductive CommandName where
  | build
  | stats
  | verify
  | canon
deriving DecidableEq, Repr

namespace CommandName

/-- The command with a name. -/
def ofText? : String → Option CommandName
  | "build" => some build
  | "stats" => some stats
  | "verify" => some verify
  | "canon" => some canon
  | _ => none

/-- The flags that a command knows. -/
def flags : CommandName → List Flag
  | build => Flag.common ++ Flag.ofIndex ++ [.output, .format, .sort, .exported]
  | stats => Flag.common ++ Flag.ofIndex
  | verify => Flag.common ++ Flag.ofIndex ++ [.input]
  | canon => Flag.common ++ [.core]

end CommandName

end PathQueryIndex
