/-
Module: PathQueryIndex.Main
Layer: Application
Purpose: The program on a computer. Results go to the standard output and errors to the other one; the
  exit code tells misuse from failure.
Imports: PathQueryIndex.Command.Run
Main exports: main
-/
import PathQueryIndex.Command.Run

namespace PathQueryIndex

/-- An action with its error described. -/
def described {α : Type} (x : IO α) : IO (Except String α) :=
  EIO.toIO' (IO.toEIO (fun e => toString e) x)

/-- How many processors the system lists; one if it does not tell. -/
def countProcessors : IO Nat := do
  match ← described (IO.FS.lines "/proc/cpuinfo") with
  | .ok lines => return max 1 (lines.toList.filter (·.startsWith "processor")).length
  | .error _ => return 1

instance : Host IO where
  entry path := described do
    let place ← IO.FS.realPath path
    let found ← place.metadata
    let kind : EntryKind := match found.type with
      | .file => .file
      | .dir => .directory
      | _ => .other
    return ⟨place.toString, kind, found.byteSize.toNat⟩
  read path := described do return (← IO.FS.readBinFile path).toList
  write path bytes := described (IO.FS.writeBinFile path ⟨bytes.toArray⟩)
  print text := do
    let output ← IO.getStdout
    output.putStr text
    output.flush
  environment name := IO.getEnv name
  processors := countProcessors

/-- How to call the program. -/
def usage : List String :=
  ["Usage: cpqindex [-v] [--json-mode] [-c FILE] COMMAND",
   "",
   "Commands:",
   "  build INDEX [-o FILE] [-f listing|table|json] [--sort] [--export FILE]",
   "  stats INDEX",
   "  verify INDEX -i FILE",
   "  canon QUERY [--core]",
   "",
   "INDEX is -d FILE [-k N] [--cores] [-t N] [--intersections N] [--labels LIST]"]

end PathQueryIndex

open PathQueryIndex in
/-- Run the program and report how it ended. -/
def main (args : List String) : IO UInt32 := do
  match ← (runProgram args : IO Outcome) with
  | .finished => return 0
  | .failed e =>
    IO.eprintln ("Error: " ++ e.message)
    return 1
  | .misused =>
    IO.eprintln ("\n".intercalate usage)
    return 2
