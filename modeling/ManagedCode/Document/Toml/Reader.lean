import ManagedCode.Document.Toml.Scalar
import ManagedCode.Document.Toml.Tree

/-! # Reading TOML

A document is read line by line into statements, which then build its tables. -/

namespace ManagedCode.Toml

/-- What follows any blanks, line breaks and comments. -/
def skipSpace (s : List Char) : List Char :=
  match s with
  | ' ' :: rest | '\t' :: rest | '\n' :: rest => skipSpace rest
  | '\r' :: '\n' :: rest => skipSpace rest
  | '#' :: rest =>
      have := (List.dropWhile_suffix isPlain (l := rest)).length_le
      skipSpace (rest.dropWhile isPlain)
  | rest => rest
termination_by s.length

/-- The rest after the end of a line: blanks, a comment if there is one, and a line break or the end of the text. -/
def lineEnd? (s : List Char) : Option (List Char) :=
  let rest :=
    match skipBlanks s with
    | '#' :: rest => rest.dropWhile isPlain
    | rest => rest
  if rest.isEmpty then some [] else lineBreak? rest

/-! ### Keys -/

def isKeyChar (c : Char) : Bool :=
  c.isAlphanum || c == '_' || c == '-'

/-- One key, bare or quoted. -/
def key : List Char → Option (String × List Char)
  | '"' :: rest => quotedInLine .basic rest
  | '\'' :: rest => quotedInLine .literal rest
  | s =>
      let name := s.takeWhile isKeyChar
      if name.isEmpty then none else some (String.ofList name, s.drop name.length)

/-- Keys with dots between them, at most `limit` of them, and the rest after the blanks that follow. -/
def keyPath : (limit : Nat) → List Char → Option (List String × List Char)
  | 0, _ => none
  | limit + 1, s => do
      let (name, rest) ← key (skipBlanks s)
      match skipBlanks rest with
      | '.' :: rest => do
          let (path, rest) ← keyPath limit rest
          return (name :: path, rest)
      | rest => return ([name], rest)

/-- The most keys a path may have, and the deepest nesting of arrays and inline tables. -/
def depthLimit : Nat := 79

/-! ### Values -/

mutual

/-- A value, with `depth` for further nesting and `fuel` for its parts. -/
def value (fuel depth : Nat) (s : List Char) : Option (Data × List Char) :=
  match fuel with
  | 0 => none
  | fuel + 1 =>
      match s, depth with
      | '"' :: _, _ | '\'' :: _, _ => (quoted s).map fun (text, rest) => (.text text, rest)
      | '[' :: rest, depth + 1 => do
          let (values, rest) ← items fuel depth rest
          return (.array values, rest)
      | '\x7b' :: rest, depth + 1 =>
          match skipBlanks rest with
          | '\x7d' :: rest => some (.table [], rest)
          | rest => do
              let (values, rest) ← inlineEntries fuel depth rest
              let entries ← Entries.addValues [] values
              return (entries.toData, rest)
      | s, _ => scalar s

/-- The items of an array up to its closing bracket. -/
def items (fuel depth : Nat) (s : List Char) : Option (List Data × List Char) :=
  match fuel with
  | 0 => none
  | fuel + 1 =>
      match skipSpace s with
      | ']' :: rest => some ([], rest)
      | s => do
          let (item, rest) ← value fuel depth s
          match skipSpace rest with
          | ']' :: rest => return ([item], rest)
          | ',' :: rest =>
              let (more, rest) ← items fuel depth rest
              return (item :: more, rest)
          | _ => none

/-- The entries of an inline table that has any, up to its closing brace. -/
def inlineEntries (fuel depth : Nat) (s : List Char) : Option (List (List String × Data) × List Char) :=
  match fuel with
  | 0 => none
  | fuel + 1 => do
      let (path, rest) ← keyPath depthLimit s
      let rest ← expect '=' rest
      let (item, rest) ← value fuel depth (skipBlanks rest)
      match skipBlanks rest with
      | '\x7d' :: rest => return ([(path, item)], rest)
      | ',' :: rest =>
          let (more, rest) ← inlineEntries fuel depth rest
          return ((path, item) :: more, rest)
      | _ => none

end

/-! ### Documents -/

/-- A header or an entry, up to the end of its line. -/
def statement (s : List Char) : Option (Statement × List Char) :=
  match s with
  | '[' :: '[' :: rest => do
      let (path, rest) ← keyPath depthLimit rest
      let rest ← expect ']' (← expect ']' rest)
      return (.tables path, rest)
  | '[' :: rest => do
      let (path, rest) ← keyPath depthLimit rest
      let rest ← expect ']' rest
      return (.table path, rest)
  | s => do
      let (path, rest) ← keyPath depthLimit s
      let rest ← expect '=' rest
      let (item, rest) ← value (2 * rest.length + 2) depthLimit (skipBlanks rest)
      return (.value path item, rest)

/-- The statements of a document, at most `fuel` lines. -/
def statements : (fuel : Nat) → List Char → Option (List Statement)
  | _, [] => some []
  | 0, _ => none
  | fuel + 1, s =>
      match lineEnd? s with
      | some rest => statements fuel rest
      | none => do
          let (first, rest) ← statement (skipBlanks s)
          let rest ← lineEnd? rest
          let more ← statements fuel rest
          return first :: more

/-- A text without the mark that may stand at its start. -/
def withoutMark : List Char → List Char
  | '\uFEFF' :: rest => rest
  | s => s

/-- The data of a text, if it is a document. -/
def parse (text : String) : Option Data := do
  let s := withoutMark text.toList
  let lines ← statements s.length s
  let entries ← Entries.ofStatements lines
  return entries.toData

end ManagedCode.Toml
