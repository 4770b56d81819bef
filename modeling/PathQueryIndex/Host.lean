/-
Module: PathQueryIndex.Host
Layer: Application
Purpose: What a run needs from its surroundings: files, variables of the environment, the number of
  processors and a place to print. A run is written against this interface, so it means the same on a
  computer and on a tree of files in memory.
Imports: none
Main exports: EntryKind, Entry, Host, Path.fileName?, Path.parent
-/

namespace PathQueryIndex

/-- What stands at a path. -/
inductive EntryKind where
  | file
  | directory
  | other
deriving DecidableEq, Repr

/-- A file or a directory: its absolute path without detours, and its size in bytes. -/
structure Entry where
  path : String
  kind : EntryKind
  size : Nat
deriving DecidableEq, Repr

/-- The surroundings of a run. A failure comes with a description. -/
class Host (m : Type → Type) where
  entry : String → m (Except String Entry)
  read : String → m (Except String (List UInt8))
  write : String → List UInt8 → m (Except String Unit)
  print : String → m Unit
  environment : String → m (Option String)
  processors : m Nat

namespace Path

/-- The parts of a path; doubled slashes and dots that stay where they are do not count. -/
def parts (path : String) : List String :=
  (path.splitOn "/").filter fun part => part != "" && part != "."

/-- Whether a path starts at the root. -/
def isAbsolute (path : String) : Bool := path.startsWith "/"

/-- The name of the file at the end of a path, unless the path ends by going up. -/
def fileName? (path : String) : Option String :=
  (parts path).getLast?.filter (· != "..")

/-- The directory in which the last part of a path stands. -/
def parent (path : String) : String :=
  let parts := (parts path).dropLast
  if isAbsolute path then "/" ++ "/".intercalate parts
  else if parts.isEmpty then "." else "/".intercalate parts

end Path

end PathQueryIndex
