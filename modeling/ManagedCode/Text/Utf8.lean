/-! # UTF-8 with replacement

Text is turned into bytes by the standard encoding. The way back accepts every byte sequence: what is not
UTF-8 is replaced, one replacement character for each longest start of a character that breaks off. -/

namespace ManagedCode.Text

/-- The UTF-8 bytes of a text. -/
def utf8 (s : String) : List UInt8 :=
  s.toList.flatMap String.utf8EncodeChar

/-- The character that stands for bytes that are not UTF-8. -/
def replacement : Char := '\uFFFD'

/-- What the first byte of a character asks for: its own bits, the number of continuation bytes, and the range
the first of these may lie in. -/
def leadOf? (b : Nat) : Option (Nat × Nat × Nat × Nat) :=
  if b < 0x80 then some (b, 0, 0x80, 0xBF)
  else if 0xC2 ≤ b ∧ b ≤ 0xDF then some (b - 0xC0, 1, 0x80, 0xBF)
  else if b = 0xE0 then some (0, 2, 0xA0, 0xBF)
  else if b = 0xED then some (0xD, 2, 0x80, 0x9F)
  else if 0xE1 ≤ b ∧ b ≤ 0xEF then some (b - 0xE0, 2, 0x80, 0xBF)
  else if b = 0xF0 then some (0, 3, 0x90, 0xBF)
  else if 0xF1 ≤ b ∧ b ≤ 0xF3 then some (b - 0xF0, 3, 0x80, 0xBF)
  else if b = 0xF4 then some (4, 3, 0x80, 0x8F)
  else none

/-- A character that has begun: its bits so far, how many bytes are missing, and the range of the next. -/
structure Begun where
  bits : Nat
  missing : Nat
  low : Nat
  high : Nat
  deriving DecidableEq, Repr

/-- What a byte at the start of a character gives, and the character it begins. -/
def beginWith (b : UInt8) : List Char × Option Begun :=
  match leadOf? b.toNat with
  | none => ([replacement], none)
  | some (bits, 0, _, _) => ([Char.ofNat bits], none)
  | some (bits, missing, low, high) => ([], some { bits, missing, low, high })

/-- What the next byte gives. A byte that does not continue the character that has begun breaks it off and begins
another. -/
def advance (begun : Option Begun) (b : UInt8) : List Char × Option Begun :=
  match begun with
  | none => beginWith b
  | some begun =>
      if begun.low ≤ b.toNat ∧ b.toNat ≤ begun.high then
        let bits := begun.bits * 64 + (b.toNat - 0x80)
        if begun.missing ≤ 1 then ([Char.ofNat bits], none)
        else ([], some { bits, missing := begun.missing - 1, low := 0x80, high := 0xBF })
      else
        let (chars, next) := beginWith b
        (replacement :: chars, next)

/-- The characters of a byte sequence, replacing what is not UTF-8. -/
def lossyChars (begun : Option Begun) : List UInt8 → List Char
  | [] => if begun.isSome then [replacement] else []
  | b :: rest =>
      let (chars, next) := advance begun b
      chars ++ lossyChars next rest

/-- The text of a byte sequence, replacing what is not UTF-8. -/
def lossy (bytes : List UInt8) : String :=
  String.ofList (lossyChars none bytes)

end ManagedCode.Text
