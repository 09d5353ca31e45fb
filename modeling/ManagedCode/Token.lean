import ManagedCode.Text.Hex

/-! # Tokens

A token names a row of one of a program's tables: the table in its high byte, the one-based row in the 24 bits
below. Row zero is the nil row and names nothing. -/

namespace ManagedCode

/-- The tables that tokens point into. -/
inductive Table where
  | typeRef
  | typeDef
  | field
  | methodDef
  | memberRef
  | userString
  | other (byte : UInt8)
  deriving DecidableEq, Repr

namespace Table

def ofByte (byte : UInt8) : Table :=
  if byte = 0x01 then .typeRef
  else if byte = 0x02 then .typeDef
  else if byte = 0x04 then .field
  else if byte = 0x06 then .methodDef
  else if byte = 0x0A then .memberRef
  else if byte = 0x70 then .userString
  else .other byte

def byte : Table → UInt8
  | .typeRef => 0x01
  | .typeDef => 0x02
  | .field => 0x04
  | .methodDef => 0x06
  | .memberRef => 0x0A
  | .userString => 0x70
  | .other byte => byte

end Table

/-- A reference to a row of a table. -/
structure Token where
  value : UInt32
  deriving DecidableEq, Repr, Inhabited

namespace Token

/-- The token of a row, of which the low 24 bits count. -/
def ofParts (table : UInt8) (row : Nat) : Token :=
  ⟨UInt32.ofNat (table.toNat * 0x1000000 + row % 0x1000000)⟩

def ofRow (table : Table) (row : Nat) : Token :=
  ofParts table.byte row

def tableByte (t : Token) : UInt8 :=
  UInt8.ofNat (t.value.toNat / 0x1000000)

def table (t : Token) : Table :=
  Table.ofByte t.tableByte

def row (t : Token) : Nat :=
  t.value.toNat % 0x1000000

/-- The zero-based position in the token's table; the nil row has none. -/
def index? (t : Token) : Option Nat :=
  if t.row = 0 then none else some (t.row - 1)

def text (t : Token) : String :=
  "0x" ++ Text.hex 8 t.value.toNat

end Token
end ManagedCode
