/-! # Arguments of the command line

There are two commands: `run`, with a file, options in any order and, after a double dash, the arguments of the
program; and `check`, with a file. The value of an option follows it or is attached with an equals sign. A value is
looked at when the next argument that is understood follows it, or at the end. -/

namespace ManagedCode.CommandLine

/-- What is asked of a run. -/
structure RunRequest where
  file : String
  programArgs : List String := []
  config : Option String := none
  gcStats : Bool := false
  noGc : Bool := false
  verify : Bool := false
  maxCallDepth : Option Nat := none
  deriving DecidableEq, Repr

inductive Command where
  | run (request : RunRequest)
  | check (file : String)
  | help
  deriving DecidableEq, Repr

/-- What is wrong with the arguments: they fit no command, or a parameter has no value or a bad one. -/
inductive ArgumentError where
  | usage
  | missingValue (parameter : String)
  | badValue (value parameter reason : String)
  deriving DecidableEq, Repr

/-! ### Numbers -/

inductive NumberError where
  | empty
  | badDigit
  | tooLarge
  deriving DecidableEq, Repr

def NumberError.message : NumberError → String
  | .empty => "cannot parse integer from empty string"
  | .badDigit => "invalid digit found in string"
  | .tooLarge => "number too large to fit in target type"

/-- Reads digits onto `n`, from left to right, up to the first that is none or makes the number too large. -/
def readDigits (n : Nat) : List Char → Except NumberError Nat
  | [] => .ok n
  | c :: rest =>
      if !c.isDigit then .error .badDigit
      else if n * 10 + (c.toNat - 48) < 0x10000000000000000 then readDigits (n * 10 + (c.toNat - 48)) rest
      else .error .tooLarge

/-- Reads a number of 64 bits, which may have a plus sign. -/
def readNumber (text : String) : Except NumberError Nat :=
  match text.toList with
  | [] => .error .empty
  | ['+'] => .error .badDigit
  | '+' :: digits => readDigits 0 digits
  | digits => readDigits 0 digits

/-! ### Parameters -/

/-- The parameters that take a value. -/
inductive Parameter where
  | file
  | config
  | maxCallDepth
  deriving DecidableEq, Repr

def Parameter.label : Parameter → String
  | .file => "<FILE>"
  | .config => "--config <FILE>"
  | .maxCallDepth => "--max-call-depth <MAX_CALL_DEPTH>"

inductive Flag where
  | gcStats
  | noGc
  | verify
  deriving DecidableEq, Repr

/-- What a long option means. -/
inductive Switch where
  | help
  | flag (flag : Flag)
  | valued (parameter : Parameter)
  deriving DecidableEq, Repr

/-- The options by name; those of a run are not known elsewhere. -/
def Switch.ofName? (isRun : Bool) (name : String) : Option Switch :=
  if name = "help" then some .help
  else if !isRun then none
  else if name = "gc-stats" then some (.flag .gcStats)
  else if name = "no-gc" then some (.flag .noGc)
  else if name = "verify" then some (.flag .verify)
  else if name = "config" then some (.valued .config)
  else if name = "max-call-depth" then some (.valued .maxCallDepth)
  else none

/-- An argument by its form. -/
inductive Argument where
  | divider
  | long (name : String) (attached : Option String)
  | short (first : Char)
  | plain (text : String)
  deriving DecidableEq, Repr

/-- The form of an argument. A dash alone is a plain one. -/
def Argument.ofText (text : String) : Argument :=
  match text.toList with
  | ['-', '-'] => .divider
  | '-' :: '-' :: rest =>
      let name := rest.takeWhile (· != '=')
      let attached := if name.length < rest.length then some (String.ofList (rest.drop (name.length + 1))) else none
      .long (String.ofList name) attached
  | '-' :: c :: _ => .short c
  | _ => .plain text

/-! ### Collecting -/

/-- What the arguments so far say. `pending` is a parameter with its value, if that has come, which is still to be
looked at. -/
structure Collected where
  isRun : Bool
  file : Option String := none
  config : Option String := none
  maxCallDepth : Option Nat := none
  flags : List Flag := []
  programArgs : List String := []
  pending : Option (Parameter × Option String) := none
  deriving DecidableEq, Repr

namespace Collected

/-- Gives a parameter its value. None may be given twice, and file names are not empty. -/
def assign (c : Collected) (parameter : Parameter) (value : String) : Except ArgumentError Collected :=
  match parameter with
  | .file => if value.isEmpty then .error (.missingValue parameter.label) else .ok { c with file := some value }
  | .config =>
      if c.config.isSome then .error .usage
      else if value.isEmpty then .error (.missingValue parameter.label)
      else .ok { c with config := some value }
  | .maxCallDepth =>
      if c.maxCallDepth.isSome then .error .usage
      else
        match readNumber value with
        | .ok n => .ok { c with maxCallDepth := some n }
        | .error e => .error (.badValue value parameter.label e.message)

/-- Looks at the pending parameter. -/
def settle (c : Collected) : Except ArgumentError Collected :=
  match c.pending with
  | none => .ok c
  | some (parameter, none) => .error (.missingValue parameter.label)
  | some (parameter, some value) => { c with pending := none }.assign parameter value

def addFlag (c : Collected) (flag : Flag) : Except ArgumentError Collected := do
  let c ← c.settle
  if c.flags.contains flag then .error .usage else return { c with flags := flag :: c.flags }

def addParameter (c : Collected) (parameter : Parameter) (value : Option String) :
    Except ArgumentError Collected := do
  let c ← c.settle
  return { c with pending := some (parameter, value) }

/-- Whether the file was named, looked at or not. -/
def hasFile (c : Collected) : Bool :=
  c.file.isSome || (c.pending.map Prod.fst) == some .file

/-- A plain argument where a file may be named. -/
def addFile (c : Collected) (text : String) : Except ArgumentError Collected :=
  if c.hasFile then .error .usage else c.addParameter .file (some text)

/-- An argument after the double dash. -/
def addTrailing (c : Collected) (text : String) : Except ArgumentError Collected :=
  if c.isRun then do
    let c ← c.settle
    return { c with programArgs := c.programArgs ++ [text] }
  else c.addFile text

/-- The command that the arguments make up. -/
def finish (c : Collected) : Except ArgumentError Command := do
  let c ← c.settle
  match c.file with
  | none => .error .usage
  | some file =>
      if c.isRun then
        return .run {
          file
          programArgs := c.programArgs
          config := c.config
          gcStats := c.flags.contains .gcStats
          noGc := c.flags.contains .noGc
          verify := c.flags.contains .verify
          maxCallDepth := c.maxCallDepth }
      else return .check file

/-- Reads the arguments of a command from left to right. -/
def collect (c : Collected) : List String → Except ArgumentError Command
  | [] => c.finish
  | text :: rest =>
      match Argument.ofText text with
      | .divider => do
          let c ← rest.foldlM addTrailing c
          c.finish
      | .short first => if first = 'h' then c.settle.map fun _ => .help else .error .usage
      | .long name attached =>
          match Switch.ofName? c.isRun name, attached with
          | none, _ | some .help, some _ | some (.flag _), some _ => .error .usage
          | some .help, none => c.settle.map fun _ => .help
          | some (.flag flag), none => do
              let c ← c.addFlag flag
              c.collect rest
          | some (.valued parameter), some value => do
              let c ← c.addParameter parameter (some value)
              let c ← c.settle
              c.collect rest
          | some (.valued parameter), none => do
              let c ← c.addParameter parameter none
              c.collect rest
      | .plain text =>
          match c.pending with
          | some (parameter, none) => { c with pending := some (parameter, some text) }.collect rest
          | _ => do
              let c ← c.addFile text
              c.collect rest

end Collected

/-- The command that a command line asks for. -/
def parse : List String → Except ArgumentError Command
  | "run" :: rest => Collected.collect { isRun := true } rest
  | "check" :: rest => Collected.collect { isRun := false } rest
  | ["help"] | ["help", "run"] | ["help", "check"] | ["help", "help"] => .ok .help
  | text :: _ =>
      match Argument.ofText text with
      | .short 'h' | .long "help" none => .ok .help
      | _ => .error .usage
  | [] => .error .usage

end ManagedCode.CommandLine
