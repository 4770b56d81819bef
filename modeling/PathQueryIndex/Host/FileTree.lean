/-
Module: PathQueryIndex.Host.FileTree
Layer: Application
Purpose: A tree of files in memory as the surroundings of a run. A directory is there as soon as
  something is in it, and so is the directory in which the run starts. A sink takes whatever is written
  to it and stays empty. Everything that is printed is kept.
Imports: PathQueryIndex.Host
Main exports: FileTree, FileTree.walk, Scene
-/
import PathQueryIndex.Host

namespace PathQueryIndex

/-- Files with the names on the way from the root to them, the directory where paths start, and the
    places of the sinks. -/
structure FileTree where
  home : List String
  files : List (List String × List UInt8)
  sinks : List (List String) := [["dev", "null"]]

namespace FileTree

/-- Whether there is a directory at a place. -/
def isDirectory (t : FileTree) (place : List String) : Bool :=
  place.isPrefixOf t.home ||
    (t.files.map Prod.fst ++ t.sinks).any fun name =>
      place.isPrefixOf name && place.length < name.length

/-- Whether there is something at a place. -/
def isTaken (t : FileTree) (place : List String) : Bool :=
  t.isDirectory place || (t.files.lookup place).isSome || t.sinks.contains place

/-- Take one step of a path. Only in a directory can a step be taken. -/
def step (t : FileTree) (place : List String) (part : String) : Option (List String) :=
  if !t.isDirectory place then none
  else if part == "" || part == "." then some place
  else if part == ".." then some place.dropLast
  else
    let next := place ++ [part]
    if t.isTaken next then some next else none

/-- The place that a path leads to, if there is something at it. -/
def walk (t : FileTree) (path : String) : Option (List String) :=
  (path.splitOn "/").foldlM t.step (if Path.isAbsolute path then [] else t.home)

/-- The text of a place. -/
def text (place : List String) : String := "/".intercalate place

/-- What stands at the end of a path. -/
def entry (t : FileTree) (path : String) : Except String Entry :=
  match t.walk path with
  | none => .error "No such file or directory"
  | some place =>
    match t.files.lookup place with
    | some bytes => .ok ⟨text place, .file, bytes.length⟩
    | none => .ok ⟨text place, if t.sinks.contains place then .other else .directory, 0⟩

/-- The place that an absolute path names. -/
def placeOf (path : String) : List String := Path.parts path

/-- The bytes of the file at an absolute path. -/
def read (t : FileTree) (path : String) : Except String (List UInt8) :=
  let place := placeOf path
  match t.files.lookup place with
  | some bytes => .ok bytes
  | none => if t.sinks.contains place then .ok [] else .error "No such file"

/-- The most bytes that a name can have. -/
def maxNameSize : Nat := 255

/-- Replace the file at an absolute path, or put one there. -/
def write (t : FileTree) (path : String) (bytes : List UInt8) : Except String FileTree :=
  let place := placeOf path
  if t.sinks.contains place then .ok t
  else if t.isDirectory place then .error "Is a directory"
  else if place.any fun name => maxNameSize < name.utf8ByteSize then .error "File name too long"
  else .ok { t with files := (place, bytes) :: t.files.filter fun (name, _) => name != place }

end FileTree

/-- A tree of files, the variables of the environment, and what has been printed. -/
structure Scene where
  tree : FileTree
  environment : List (String × String)
  output : String

instance : Host (StateM Scene) where
  entry path := do return (← get).tree.entry path
  read path := do return (← get).tree.read path
  write path bytes := do
    let scene ← get
    match scene.tree.write path bytes with
    | .ok tree =>
      set { scene with tree }
      return .ok ()
    | .error reason => return .error reason
  print text := modify fun scene => { scene with output := scene.output ++ text }
  environment name := do return (← get).environment.lookup name
  processors := return 1

end PathQueryIndex
