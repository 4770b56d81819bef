/-
Module: PathQueryIndex.Command.Arguments
Layer: Application
Purpose: Invocations from the arguments of a command line. The first argument that is no flag names the
  command, and later ones are its operands. A flag is a name after two dashes or a letter after one,
  and letters can be written together; its value is what remains of the argument or else the next
  argument. Two dashes alone end the flags. Before the command and behind it no flag may occur twice,
  and a flag for all commands counts behind the command rather than before it.
Imports: PathQueryIndex.Command, PathQueryIndex.Command.Flag
Main exports: Scan, Scan.step, Scan.run?, Invocation.ofArguments?
-/
import PathQueryIndex.Command
import PathQueryIndex.Command.Flag

namespace PathQueryIndex

/-- Flags with their values; a flag that takes none has the empty one. -/
abbrev GivenFlags := List (Flag × String)

/-- How far some arguments have been read: the command, if it has been named, the flags before it and
    behind it, the operands, a flag that waits for its value, and whether the flags have ended. -/
structure Scan where
  command : Option CommandName
  before : GivenFlags
  behind : GivenFlags
  operands : List String
  pending : Option Flag
  closed : Bool

namespace Scan

/-- Nothing read. -/
def start : Scan := ⟨none, [], [], [], none, false⟩

/-- The flags that may come next. -/
def known (s : Scan) : List Flag :=
  match s.command with
  | none => Flag.common
  | some command => command.flags

/-- The flags given on this side of the command. -/
def given (s : Scan) : GivenFlags := if s.command.isNone then s.before else s.behind

/-- Note a flag with its value. -/
def give? (s : Scan) (f : Flag) (value : String) : Option Scan :=
  if (s.given.lookup f).isSome || !f.kind.accepts value then none
  else if s.command.isNone then some { s with before := s.before ++ [(f, value)], pending := none }
  else some { s with behind := s.behind ++ [(f, value)], pending := none }

/-- Whether an argument is one or more flags, or ends them. A dash alone is a value. -/
def isDashed (arg : List Char) : Bool :=
  match arg with
  | '-' :: _ :: _ => true
  | _ => false

/-- Note an argument that is no flag. -/
def operand? (s : Scan) (arg : String) : Option Scan :=
  match s.command with
  | some _ => some { s with operands := s.operands ++ [arg] }
  | none =>
    if s.closed then none
    else (CommandName.ofText? arg).map fun command => { s with command := some command }

/-- A flag by its name, with a value after an equals sign if there is one. -/
def long? (s : Scan) (arg : List Char) : Option Scan := do
  let (name, rest) := arg.span (· != '=')
  let f ← s.known.find? fun f => f.long? == some (String.ofList name)
  match f.kind, rest with
  | .none, [] => s.give? f ""
  | .none, _ => none
  | _, [] => return { s with pending := some f }
  | _, _ :: value => s.give? f (String.ofList value)

/-- Flags by their letters. The first that takes a value takes all that follows it; an equals sign
    between them does not belong to the value. -/
def letters? (s : Scan) : List Char → Option Scan
  | [] => some s
  | letter :: rest => do
    let f ← s.known.find? fun f => f.short? == some letter
    match f.kind, rest with
    | .none, rest => (← s.give? f "").letters? rest
    | _, [] => return { s with pending := some f }
    | _, '=' :: value => s.give? f (String.ofList value)
    | _, value => s.give? f (String.ofList value)

/-- Read an argument. -/
def step (s : Scan) (arg : String) : Option Scan :=
  if s.closed then s.operand? arg
  else
    match s.pending, arg.toList with
    | some f, cs => if isDashed cs then none else s.give? f arg
    | none, ['-', '-'] => some { s with closed := true }
    | none, '-' :: '-' :: cs => s.long? cs
    | none, '-' :: c :: cs => s.letters? (c :: cs)
    | none, _ => s.operand? arg

/-- Read all arguments; no flag may be left waiting. -/
def run? (args : List String) : Option Scan := do
  let s ← args.foldlM step start
  if s.pending.isSome then none else some s

/-- The value of a flag behind the command. -/
def value? (s : Scan) (f : Flag) : Option String := s.behind.lookup f

/-- The number of a flag behind the command. -/
def number? (s : Scan) (f : Flag) : Option Nat := s.value? f >>= ValueKind.number?

/-- Whether a flag stands behind the command. -/
def has (s : Scan) (f : Flag) : Bool := (s.value? f).isSome

/-- The value of a flag on either side of the command. -/
def anywhere? (s : Scan) (f : Flag) : Option String := (s.value? f).or (s.before.lookup f)

/-- The flags about a graph and its index; there has to be a graph. -/
def indexRequest? (s : Scan) : Option IndexRequest := do
  return { graph := ← s.value? .data
           depth := s.number? .depth
           cores := s.has .cores
           workers := s.number? .threads
           maxIntersections := s.number? .intersections
           labels := s.value? .labels }

/-- The command with its flags and operands. -/
def command? (s : Scan) : Option Command := do
  match ← s.command, s.operands with
  | .build, [] =>
    let target : BuildTarget :=
      { output := s.value? .output
        format := s.value? .format >>= OutputFormat.ofName?
        sort := s.has .sort
        exported := s.value? .exported }
    return .build (← s.indexRequest?) target
  | .stats, [] => return .stats (← s.indexRequest?)
  | .verify, [] => return .verify (← s.indexRequest?) (← s.value? .input)
  | .canon, [query] => return .canon query (s.has .core)
  | _, _ => none

end Scan

/-- The invocation that some arguments spell, if they spell one. -/
def Invocation.ofArguments? (args : List String) : Option Invocation := do
  let s ← Scan.run? args
  return { verbose := (s.anywhere? .verbose).isSome
           jsonMode := (s.anywhere? .jsonMode).isSome
           settingsFile := s.anywhere? .config
           command := ← s.command? }

end PathQueryIndex
