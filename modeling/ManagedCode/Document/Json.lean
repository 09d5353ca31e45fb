import ManagedCode.Document.Data
import ManagedCode.Text.Hex

/-! # JSON

Reads JSON text into document data. Integers are those without fraction and exponent that fit 64 bits, unsigned or
negative; minus zero and all others are floats. A string with an unpaired surrogate is no Unicode text. -/

namespace ManagedCode.Json

def isBlank (c : Char) : Bool :=
  c == ' ' || c == '\n' || c == '\t' || c == '\r'

def skipBlanks (s : List Char) : List Char :=
  s.dropWhile isBlank

/-! ### Strings -/

/-- A unit of a string: a character, or half of one. -/
inductive TextUnit where
  | char (c : Char)
  | surrogate (code : Nat)

/-- The number that four hexadecimal digits stand for. -/
def hexCode? (a b c d : Char) : Option Nat := do
  let a ← Text.hexValue? a.toNat
  let b ← Text.hexValue? b.toNat
  let c ← Text.hexValue? c.toNat
  let d ← Text.hexValue? d.toNat
  return ((a * 16 + b) * 16 + c) * 16 + d

def unitOfCode (code : Nat) : TextUnit :=
  if 0xD800 ≤ code ∧ code ≤ 0xDFFF then .surrogate code else .char (Char.ofNat code)

def escaped? : Char → Option Char
  | '"' => some '"'
  | '\\' => some '\\'
  | '/' => some '/'
  | 'b' => some '\x08'
  | 'f' => some '\x0c'
  | 'n' => some '\n'
  | 'r' => some '\r'
  | 't' => some '\t'
  | _ => none

/-- The units of a string up to its closing quote, and what follows. -/
def stringUnits : List Char → Option (List TextUnit × List Char)
  | [] => none
  | '"' :: rest => some ([], rest)
  | '\\' :: 'u' :: a :: b :: c :: d :: rest => do
      let code ← hexCode? a b c d
      let (units, rest) ← stringUnits rest
      return (unitOfCode code :: units, rest)
  | '\\' :: c :: rest => do
      let c ← escaped? c
      let (units, rest) ← stringUnits rest
      return (.char c :: units, rest)
  | c :: rest =>
      if c.toNat < 0x20 ∨ c = '\\' then none
      else do
        let (units, rest) ← stringUnits rest
        return (.char c :: units, rest)

/-- The characters of the units; surrogates have to come in pairs. -/
def pairUp : List TextUnit → Option (List Char)
  | [] => some []
  | .char c :: rest => (pairUp rest).map (c :: ·)
  | .surrogate high :: .surrogate low :: rest =>
      if high < 0xDC00 ∧ 0xDC00 ≤ low then
        (pairUp rest).map (Char.ofNat (0x10000 + (high - 0xD800) * 0x400 + (low - 0xDC00)) :: ·)
      else none
  | .surrogate _ :: _ => none

/-- A string after its opening quote: its text if it is Unicode text, and what follows. -/
def string (s : List Char) : Option (Option String × List Char) := do
  let (units, rest) ← stringUnits s
  return ((pairUp units).map String.ofList, rest)

/-! ### Numbers -/

def digits (s : List Char) : List Char × List Char :=
  (s.takeWhile Char.isDigit, s.dropWhile Char.isDigit)

def natOfDigits (ds : List Char) : Nat :=
  ds.foldl (fun n d => n * 10 + (d.toNat - 48)) 0

/-- The rest after a fraction, if there is one. -/
def fraction : List Char → Option (Bool × List Char)
  | '.' :: rest =>
      match digits rest with
      | ([], _) => none
      | (_, rest) => some (true, rest)
  | rest => some (false, rest)

/-- The rest after an exponent, if there is one. -/
def exponent (s : List Char) : Option (Bool × List Char) :=
  match s with
  | 'e' :: rest | 'E' :: rest =>
      let unsigned :=
        match rest with
        | '+' :: rest | '-' :: rest => rest
        | rest => rest
      match digits unsigned with
      | ([], _) => none
      | (_, rest) => some (true, rest)
  | rest => some (false, rest)

def classify (negative : Bool) (n : Nat) : Data :=
  if negative then if n = 0 ∨ 0x8000000000000000 < n then .float else .int (-n)
  else if n < 0x10000000000000000 then .int n
  else .float

/-- A number without its sign. -/
def number (negative : Bool) (s : List Char) : Option (Data × List Char) := do
  let (ds, rest) := digits s
  match ds with
  | [] => none
  | '0' :: _ :: _ => none
  | ds =>
      let (hasFraction, rest) ← fraction rest
      let (hasExponent, rest) ← exponent rest
      let value := if hasFraction || hasExponent then .float else classify negative (natOfDigits ds)
      return (value, rest)

/-! ### Values

The rest is missing where the text breaks off; the data then ends in `malformed`. -/

def literal (word : List Char) (value : Data) (s : List Char) : Data × Option (List Char) :=
  if word.isPrefixOf s then (value, some (s.drop word.length)) else (.malformed, none)

def orMalformed (result : Option (Data × List Char)) : Data × Option (List Char) :=
  match result with
  | some (value, rest) => (value, some rest)
  | none => (.malformed, none)

mutual

/-- A value, with `fuel` for the nesting and the number of items. -/
def value (fuel : Nat) (s : List Char) : Data × Option (List Char) :=
  match fuel with
  | 0 => (.malformed, none)
  | fuel + 1 =>
      match skipBlanks s with
      | 'n' :: rest => literal "ull".toList .null rest
      | 't' :: rest => literal "rue".toList (.bool true) rest
      | 'f' :: rest => literal "alse".toList (.bool false) rest
      | '"' :: rest =>
          match string rest with
          | some (some text, rest) => (.text text, some rest)
          | some (none, rest) => (.badText, some rest)
          | none => (.malformed, none)
      | '[' :: rest =>
          match skipBlanks rest with
          | ']' :: rest => (.array [], some rest)
          | rest =>
              let (values, rest) := items fuel rest
              (.array values, rest)
      | '\x7b' :: rest =>
          match skipBlanks rest with
          | '\x7d' :: rest => (.table [], some rest)
          | rest =>
              let (values, rest) := entries fuel rest
              (.table values, rest)
      | '-' :: rest => orMalformed (number true rest)
      | rest => orMalformed (number false rest)

/-- The items of an array up to its closing bracket. -/
def items (fuel : Nat) (s : List Char) : List Data × Option (List Char) :=
  match fuel with
  | 0 => ([.malformed], none)
  | fuel + 1 =>
      match value fuel s with
      | (v, none) => ([v], none)
      | (v, some rest) =>
          match skipBlanks rest with
          | ',' :: rest =>
              let (vs, rest) := items fuel rest
              (v :: vs, rest)
          | ']' :: rest => ([v], some rest)
          | _ => ([v, .malformed], none)

/-- The entries of an object up to its closing brace. -/
def entries (fuel : Nat) (s : List Char) : List (Option String × Data) × Option (List Char) :=
  match fuel with
  | 0 => ([(none, .malformed)], none)
  | fuel + 1 =>
      match skipBlanks s with
      | '"' :: rest =>
          match string rest with
          | none => ([(none, .malformed)], none)
          | some (key, rest) =>
              match skipBlanks rest with
              | ':' :: rest =>
                  match value fuel rest with
                  | (v, none) => ([(key, v)], none)
                  | (v, some rest) =>
                      match skipBlanks rest with
                      | ',' :: rest =>
                          let (vs, rest) := entries fuel rest
                          ((key, v) :: vs, rest)
                      | '\x7d' :: rest => ([(key, v)], some rest)
                      | _ => ([(key, v), (none, .malformed)], none)
              | _ => ([(key, .malformed)], none)
      | _ => ([(none, .malformed)], none)

end

/-- The data of a text, and whether only blanks follow it. -/
def parse (text : String) : Data × Bool :=
  let s := text.toList
  match value (2 * s.length + 2) s with
  | (data, some rest) => (data, (skipBlanks rest).isEmpty)
  | (data, none) => (data, false)

end ManagedCode.Json
