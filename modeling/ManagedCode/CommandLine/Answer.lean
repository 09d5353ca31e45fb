import ManagedCode.CommandLine.Arguments
import ManagedCode.Files
import ManagedCode.Machine.Run
import ManagedCode.Text.Visible

/-! # Answers of the command line

What a command prints and the status it ends with, given the files it can see. -/

namespace ManagedCode.CommandLine

/-- The status of a command and its lines on the two output streams. -/
structure Answer where
  status : UInt8
  output : String := ""
  errors : List String := []
  deriving DecidableEq, Repr

def usageLines : List String :=
  ["Usage: run <FILE> [--config <FILE>] [--gc-stats] [--no-gc] [--verify] [--max-call-depth <MAX_CALL_DEPTH>]" ++
      " [-- <PROGRAM_ARGS>...]",
    "       check <FILE>"]

namespace ArgumentError

/-- The report of an error. A bad value is shown without what a terminal would take for a command. -/
def lines : ArgumentError → List String
  | .usage => "error: the arguments fit no command" :: "" :: usageLines
  | .missingValue parameter => hinted s!"error: a value is required for '{parameter}' but none was supplied"
  | .badValue value parameter reason =>
      hinted s!"error: invalid value '{Text.visible value}' for '{parameter}': {reason}"
where
  hinted (text : String) : List String := [text, "", "For more information, try '--help'."]

def answer (e : ArgumentError) : Answer :=
  { status := 2, errors := e.lines }

end ArgumentError

namespace Answer

def failed (e : Error) : Answer :=
  { status := 1, errors := [s!"error: {e.message}"] }

def help : Answer :=
  { status := 0, output := String.join (usageLines.map fun line => line ++ "\n") }

end Answer

/-- The line that reports what the heap did. -/
def statsLine (stats : HeapStats) : String :=
  s!"[GC] Allocated: {stats.allocated}, Minor: {stats.minorCollections}, Major: {stats.majorCollections}, " ++
    s!"Promoted: {stats.promoted}, Reclaimed: {stats.reclaimed}"

/-- The configuration of a run: that of its file, if one is named, and what the options change. -/
def RunRequest.settings (request : RunRequest) (files : Files) : Except Error Config := do
  let config ←
    match request.config with
    | some name => files.config name
    | none => .ok {}
  return { config with
    maxCallDepth := request.maxCallDepth.getD config.maxCallDepth
    gcEnabled := config.gcEnabled && !request.noGc
    gcStats := config.gcStats || request.gcStats
    verifyBodies := config.verifyBodies || request.verify }

/-- Runs a loaded program. The status is the low byte of the exit code. -/
def runProgram (p : Program) (config : Config) (args : List String) (fuel : Nat) : Option Answer := do
  let (m, result) ← Machine.runEntry p config fuel {} args
  let stats := if config.gcStats then [statsLine m.heap.stats] else []
  let answer : Answer :=
    match result with
    | .ok code => { status := code.toUInt32.toUInt8 }
    | .error e => .failed e
  return { answer with output := m.console.text, errors := stats ++ answer.errors }

/-- Runs a program from its file, for at most `fuel` steps. -/
def RunRequest.answer (request : RunRequest) (files : Files) (fuel : Nat) : Option Answer :=
  match request.settings files with
  | .error e => some (.failed e)
  | .ok config =>
      match files.program request.file with
      | .error e => some (.failed e)
      | .ok p => runProgram p config request.programArgs fuel

/-- Checks the bodies of a program. -/
def checkFile (files : Files) (name : String) : Answer :=
  match files.program name >>= Program.check with
  | .ok count => { status := 0, output := s!"{count} method bodies verified.\n" }
  | .error e => .failed e

/-- The files that a command reads. -/
def Command.fileNames : Command → List String
  | .run request => request.config.toList ++ [request.file]
  | .check file => [file]
  | .help => []

/-- The answer to a command; there is none if a run does not end within `fuel` steps. -/
def Command.answer (command : Command) (files : Files) (fuel : Nat) : Option Answer :=
  match command with
  | .run request => request.answer files fuel
  | .check file => some (checkFile files file)
  | .help => some .help

/-- The answer to a command line. -/
def answer (args : List String) (files : Files) (fuel : Nat) : Option Answer :=
  match parse args with
  | .ok command => command.answer files fuel
  | .error e => some e.answer

end ManagedCode.CommandLine
