import ManagedCode.CommandLine.Answer

/-! # The program

Reads the files that the command line names, and prints the answer. -/

namespace ManagedCode.CommandLine

/-- The number of a system error, which may come negated. -/
def errorNumber (code : UInt32) : UInt32 :=
  if code < 0x80000000 then code else 0 - code

/-- Why a file could not be read. -/
def fileError (e : IO.Error) : FileError :=
  match e with
  | .noFileOrDirectory .. => .notFound
  | .userError _ => .notUnicode
  | .inappropriateType _ code _ => if errorNumber code = 20 then .notADirectory else .isADirectory
  | .invalidArgument _ code detail => if errorNumber code = 36 then .nameTooLong else .other detail
  | e => .other (toString e)

/-- The text of a file, or why there is none. -/
def readText (name : String) : IO (Except FileError String) := do
  try
    return .ok (← IO.FS.readFile name)
  catch e => return .error (fileError e)

def readTexts : List String → IO (List (String × Except FileError String))
  | [] => return []
  | name :: rest => do
      let text ← readText name
      let others ← readTexts rest
      return (name, text) :: others

/-- More steps than any run takes. -/
def stepLimit : Nat := 0x4000000000000000

def printAnswer (answer : Answer) : IO UInt32 := do
  IO.print answer.output
  for line in answer.errors do
    IO.eprintln line
  return answer.status.toUInt32

end ManagedCode.CommandLine

open ManagedCode.CommandLine in
def main (args : List String) : IO UInt32 := do
  let names :=
    match parse args with
    | .ok command => command.fileNames
    | .error _ => []
  let texts ← readTexts names
  match answer args (fun name => (texts.lookup name).getD (.error .notFound)) stepLimit with
  | some answer => printAnswer answer
  | none => return 1
