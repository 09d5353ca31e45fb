import ManagedCode.Text.Hex
import ManagedCode.Text.Utf8

/-! # The text of a method body

Images hold method bodies as hexadecimal bytes. Blanks may stand anywhere, also within a pair of digits, so they are
dropped before the digits are paired. A pair is two digits, or a plus sign and one digit. -/

namespace ManagedCode.CodeText

inductive ReadError where
  | oddDigits
  | badPair (pair : String)
  deriving DecidableEq, Repr

def ReadError.message : ReadError → String
  | .oddDigits => "IL hex string has an odd number of digits"
  | .badPair pair => s!"invalid IL hex byte '{pair}'"

/-- ASCII whitespace: tab, line feed, form feed, carriage return and space. -/
def isBlank (b : UInt8) : Bool :=
  b == 0x09 || b == 0x0A || b == 0x0C || b == 0x0D || b == 0x20

/-- The byte a pair stands for. -/
def pairValue? (a b : UInt8) : Option UInt8 :=
  if a = 0x2B then (Text.hexValue? b.toNat).map UInt8.ofNat
  else
    match Text.hexValue? a.toNat, Text.hexValue? b.toNat with
    | some high, some low => some (UInt8.ofNat (high * 16 + low))
    | _, _ => none

/-- Reads the pairs in order, up to the first that is none. -/
def readPairs : List UInt8 → Except ReadError (List UInt8)
  | a :: b :: rest =>
      match pairValue? a b with
      | some byte => (readPairs rest).map (byte :: ·)
      | none => .error (.badPair (Text.lossy [a, b]))
  | _ => .ok []

def decode (text : String) : Except ReadError (List UInt8) :=
  let digits := (Text.utf8 text).filter fun b => !isBlank b
  if digits.length % 2 = 0 then readPairs digits else .error .oddDigits

/-- Upper-case pairs with one space between them. -/
def encode (code : List UInt8) : String :=
  " ".intercalate (code.map fun b => Text.hex 2 b.toNat)

end ManagedCode.CodeText
