/-
Module: PathQueryIndex.Command.Run
Layer: Application
Purpose: Runs of the program. The arguments are read first, then the settings, then the command is
  carried out; the first failure ends the run, and what was printed before it stays printed.
Imports: PathQueryIndex.Command.Arguments, PathQueryIndex.Graph.Reader, PathQueryIndex.Host,
  PathQueryIndex.Index.Statistics, PathQueryIndex.Query.Parser, PathQueryIndex.Text.Quoted
Main exports: Outcome, loadSettings, buildIndex, Command.run, runProgram
-/
import PathQueryIndex.Command.Arguments
import PathQueryIndex.Graph.Reader
import PathQueryIndex.Host
import PathQueryIndex.Index.Statistics
import PathQueryIndex.Query.Parser
import PathQueryIndex.Text.Quoted

namespace PathQueryIndex

open Text (Json)

/-- How a run ends. -/
inductive Outcome where
  | misused
  | finished
  | failed (error : Error)
deriving DecidableEq, Repr

section

variable {m : Type → Type} [Monad m] [Host m]

/-- A step of a run. -/
abbrev Step (m : Type → Type) (α : Type) := ExceptT Error m α

/-- A step with an outcome of its own. -/
def attempt {α : Type} (x : Except Error α) : Step m α := ExceptT.mk (pure x)

/-- A step that depends on the surroundings; `context` says what failed. -/
def outside {α : Type} (context : String → String) (x : m (Except String α)) : Step m α :=
  ExceptT.mk do return (← x).mapError fun reason => .io (context reason)

/-- Print a text. -/
def printText (text : String) : Step m Unit := ExceptT.lift (Host.print text)

/-- The largest graph file that is read, in bytes. -/
def maxGraphFile : Nat := 1024 * 1024 * 1024

/-- The largest export that is read, in bytes. -/
def maxExportFile : Nat := 500 * 1024 * 1024

/-- The largest settings file that is read, in bytes. -/
def maxSettingsFile : Nat := 1024 * 1024

/-- The file at a path, which must not be greater than a limit. -/
def findFile (path : String) (limit : Nat) : Step m Entry := do
  let entry ← outside (fun reason => s!"Invalid file path '{path}': {reason}") (Host.entry path)
  if entry.kind ≠ .file then throw (.io s!"Path '{path}' is not a regular file")
  if limit < entry.size then throw (.argument (.fileSize entry.size limit))
  return entry

/-- The path of a file to be written, whose directory has to be there already. -/
def outputPath (path : String) : Step m String := do
  let parent := Path.parent path
  let entry ← outside (fun reason => s!"Invalid output directory '{parent}': {reason}")
    (Host.entry parent)
  if entry.kind ≠ .directory then
    throw (.io s!"Output directory '{parent}' is not a valid directory")
  match Path.fileName? path with
  | none => throw (.io "Output path has no filename")
  | some name => return entry.path ++ "/" ++ name

/-- Write a file. -/
def writeFile (path : String) (bytes : List UInt8) : Step m Unit := do
  let path ← outputPath path
  outside (fun reason => "Write file: " ++ reason) (Host.write path bytes)

/-- The bytes of a text. -/
def utf8 (text : String) : List UInt8 := text.toUTF8.toList

/-- The settings of a file. -/
def readSettings (path : String) : Step m Settings := do
  let context := fun reason => s!"Cannot read config '{path}': {reason}"
  let entry ← outside context (Host.entry path)
  if maxSettingsFile < entry.size then throw (.argument (.configSize entry.size maxSettingsFile))
  let bytes ← outside context (Host.read entry.path)
  match String.fromUTF8? ⟨bytes.toArray⟩ with
  | none => throw (.io (context "stream did not contain valid UTF-8"))
  | some text => attempt (Settings.ofToml text)

/-- The settings of a run: those of the file, if there is one, and those of the environment. -/
def loadSettings (path : Option String) : Step m Settings := do
  let settings ← match path with
    | none => pure .standard
    | some path => readSettings path
  let workers ← ExceptT.lift (Host.environment Settings.workersVariable)
  let logFormat ← ExceptT.lift (Host.environment Settings.logFormatVariable)
  attempt (settings.withEnvironment fun name =>
    if name = Settings.workersVariable then workers
    else if name = Settings.logFormatVariable then logFormat
    else none)

/-- Read a graph and build its index. -/
def buildIndex (settings : Settings) (request : IndexRequest) : Step m Index := do
  let options ← attempt (settings.options request (← ExceptT.lift Host.processors))
  let labels? ← attempt (request.labels.mapM parseLabels)
  let entry ← findFile request.graph maxGraphFile
  let bytes ← outside (fun reason => s!"Cannot open '{entry.path}': {reason}")
    (Host.read entry.path)
  let allowed : UInt32 → Bool := match labels? with
    | none => fun _ => true
    | some labels => labels.contains
  let graph ← attempt (Graph.read allowed bytes)
  attempt (Index.build graph options).result

/-- Build an index, show or write it, and write its export if one is wanted. -/
def runBuild (settings : Settings) (request : IndexRequest) (target : BuildTarget) :
    Step m Unit := do
  let index ← buildIndex settings request
  let index := if target.sort || settings.sort then index.sort else index
  let rendered := index.render (target.format.getD settings.outputFormat)
  match target.output with
  | some path => writeFile path (utf8 rendered)
  | none => printText rendered
  if let some path := target.exported then
    writeFile path index.exported

/-- Build an index and print its numbers. -/
def runStats (settings : Settings) (request : IndexRequest) (jsonMode : Bool) : Step m Unit := do
  let statistics := Statistics.ofIndex (← buildIndex settings request)
  if jsonMode then printText (statistics.json.pretty ++ "\n")
  else printText (statistics.text (Text.quoted request.graph))

/-- Compare an export with the index of a graph. The result is printed before a difference fails. -/
def runVerify (settings : Settings) (request : IndexRequest) (input : String) (jsonMode : Bool) :
    Step m Unit := do
  let entry ← findFile input maxExportFile
  let bytes ← outside (fun reason => "Read file: " ++ reason) (Host.read entry.path)
  let listing ← attempt (Listing.ofExport bytes)
  let index ← buildIndex settings request
  let matching ← attempt (index.verify bytes)
  if jsonMode then
    let report : Json := .object
      [("input", .text entry.path), ("blocks", .number listing.blocks.length),
        ("checksum", .number listing.checksum.toNat), ("matches", .bool matching)]
    printText (report.pretty ++ "\n")
  else
    let verdict := if matching then "MATCH" else "MISMATCH"
    printText
      s!"{entry.path}: {listing.blocks.length} blocks, checksum {listing.checksum}\n{verdict}\n"
  if !matching then
    throw (.state (.exportDiffers (Text.quoted entry.path) (Text.quoted request.graph)))

/-- Print the canonical form of a query. -/
def runCanon (text : String) (isCore jsonMode : Bool) : Step m Unit := do
  let query ← attempt (Query.parse text)
  let form ← attempt (canonicalForm query isCore)
  if jsonMode then
    let report : Json := .object
      [("query", .text query.text), ("diameter", .number query.diameter),
        ("canonical", .text form.text), ("base64", .text (CoreHash.base64 form.code))]
    printText (report.pretty ++ "\n")
  else
    let lines :=
      [s!"Query:     {query.text}", s!"Diameter:  {query.diameter}", s!"Canonical: {form.text}",
        s!"Base64:    {CoreHash.base64 form.code}"]
    printText (String.join (lines.map (· ++ "\n")))

/-- Carry out a command. -/
def Command.run (settings : Settings) (jsonMode : Bool) : Command → Step m Unit
  | .build request target =>
    let format := if jsonMode then some .json else target.format
    runBuild settings request { target with format }
  | .stats request => runStats settings request jsonMode
  | .verify request input => runVerify settings request input jsonMode
  | .canon query isCore => runCanon query isCore jsonMode

/-- Run the program on the arguments behind its name. -/
def runProgram (args : List String) : m Outcome := do
  match Invocation.ofArguments? args with
  | none => return .misused
  | some invocation =>
    let steps : Step m Unit := do
      let settings ← loadSettings invocation.settingsFile
      invocation.command.run settings invocation.jsonMode
    match ← steps.run with
    | .ok () => return .finished
    | .error e => return .failed e

end

end PathQueryIndex
