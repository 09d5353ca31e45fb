/-! # Hexadecimal text

Tokens, opcodes and offsets are written in upper-case hexadecimal, padded with zeros to a least width. -/

namespace ManagedCode.Text

/-- The upper-case hexadecimal digits of `n`, padded on the left with zeros to at least `width` of them. -/
def hexDigits (width n : Nat) : List Char :=
  let digits := (Nat.toDigits 16 n).map Char.toUpper
  List.replicate (width - digits.length) '0' ++ digits

/-- `hexDigits` as text. -/
def hex (width n : Nat) : String :=
  String.ofList (hexDigits width n)

/-- A position in a method body, the way diagnostics write it. -/
def offsetText (offset : Nat) : String :=
  "IL_" ++ hex 4 offset

/-- The value of a hexadecimal digit of either case, given by its code. -/
def hexValue? (code : Nat) : Option Nat :=
  if 48 ≤ code ∧ code ≤ 57 then some (code - 48)
  else if 65 ≤ code ∧ code ≤ 70 then some (code - 55)
  else if 97 ≤ code ∧ code ≤ 102 then some (code - 87)
  else none

end ManagedCode.Text
