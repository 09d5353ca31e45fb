import ManagedCode.Document.Toml.Reader

/-! # Writing TOML

Documents of a plain kind: each value under a single key, each header on a line of its own with a blank line before
it. -/

namespace ManagedCode.Toml

/-- A value that can be written. -/
inductive Literal where
  | nat (n : Nat)
  | bool (b : Bool)
  | text (s : String)
  | texts (items : List String)
  deriving DecidableEq, Repr

/-- A line that can be written. Keys and the parts of paths are bare. -/
inductive Line where
  | value (key : String) (literal : Literal)
  | table (path : List String)
  | tables (path : List String)
  deriving DecidableEq, Repr

namespace Literal

/-- The data a value stands for. -/
def toData : Literal → Data
  | .nat n => .int n
  | .bool b => .bool b
  | .text s => .text s
  | .texts items => .array (items.map .text)

def render : Literal → List Char
  | .nat n => Nat.toDigits 10 n
  | .bool b => (if b then "true" else "false").toList
  | .text s => writeQuoted s
  | .texts items => '[' :: (", ".toList.intercalate (items.map writeQuoted) ++ [']'])

end Literal

namespace Line

/-- What a line says. -/
def toStatement : Line → Statement
  | .value key literal => .value [key] literal.toData
  | .table path => .table path
  | .tables path => .tables path

/-- The number of a line, or zero. -/
def number : Line → Nat
  | .value _ (.nat n) => n
  | _ => 0

/-- Integers have 64 bits and a sign. -/
def isWritable (line : Line) : Bool :=
  line.number < 0x8000000000000000

def pathText (path : List String) : List Char :=
  ['.'].intercalate (path.map String.toList)

def render : Line → List Char
  | .value key literal => key.toList ++ " = ".toList ++ literal.render ++ ['\n']
  | .table path => "\n[".toList ++ pathText path ++ "]\n".toList
  | .tables path => "\n[[".toList ++ pathText path ++ "]]\n".toList

end Line

/-- The text of a document. -/
def render (lines : List Line) : String :=
  String.ofList (lines.flatMap Line.render)

end ManagedCode.Toml
