import ManagedCode.Region
import ManagedCode.Error

/-! # Assembling bodies

An emitter writes the bytes of a body. A branch is written with zeros in place of its distance, and noted. Labels are
bound to positions while emitting and may be bound after they are used. Finishing puts in each distance, from the byte
after the branch to the last position its label was bound to, and gives the regions their positions. -/

namespace ManagedCode

/-- The four bytes of a number, the lowest one first. -/
def littleEndianBytes (w : UInt32) : List UInt8 :=
  [UInt8.ofNat w.toNat, UInt8.ofNat (w.toNat / 0x100), UInt8.ofNat (w.toNat / 0x10000),
    UInt8.ofNat (w.toNat / 0x1000000)]

/-- Whether a branch opcode is followed by a distance of one byte; every other one takes four. -/
def isShortBranch (opcode : UInt8) : Bool :=
  (0x2B ≤ opcode && opcode ≤ 0x33) || opcode == 0xDE

/-- A distance to be put in: the position of its bytes, the position it is counted from, the label it leads to, and
whether there are four bytes for it or one. -/
structure Fixup where
  start : Nat
  next : Nat
  label : Nat
  wide : Bool
  deriving DecidableEq, Repr

/-- A region whose ends are labels. -/
structure LabelledRegion where
  kind : RegionKind
  tryStart : Nat
  tryEnd : Nat
  handlerStart : Nat
  handlerEnd : Nat
  catchType : Option Token
  deriving DecidableEq, Repr

/-- A body under construction: its bytes, the position each label is bound to, the distances to be put in, and its
regions. -/
structure Emitter where
  code : List UInt8 := []
  labels : List (Option Nat) := []
  fixups : List Fixup := []
  regions : List LabelledRegion := []
  deriving DecidableEq, Repr

namespace Emitter

def empty : Emitter := {}

/-- The position after the bytes so far. -/
def offset (e : Emitter) : Nat :=
  e.code.length

def emit (e : Emitter) (bytes : List UInt8) : Emitter :=
  { e with code := e.code ++ bytes }

/-- Creates the next label. Labels are numbered from zero. -/
def newLabel (e : Emitter) : Emitter × Nat :=
  ({ e with labels := e.labels ++ [none] }, e.labels.length)

/-- Binds a label to the present position. -/
def mark (e : Emitter) (label : Nat) : Emitter :=
  { e with labels := e.labels.set label (some e.offset) }

/-! ### Instructions -/

/-- An opcode of one byte without an operand. -/
def op (e : Emitter) (opcode : UInt8) : Emitter :=
  e.emit [opcode]

/-- An opcode of two bytes without an operand, given by the second. -/
def opExtended (e : Emitter) (opcode : UInt8) : Emitter :=
  e.emit [0xFE, opcode]

def withToken (e : Emitter) (opcode : UInt8) (token : Token) : Emitter :=
  e.emit (opcode :: littleEndianBytes token.value)

/-- Loads a constant in its shortest encoding. -/
def ldc (e : Emitter) (value : Int32) : Emitter :=
  let n := value.toInt
  if -1 ≤ n ∧ n ≤ 8 then e.emit [UInt8.ofNat (0x16 + n).toNat]
  else if -128 ≤ n ∧ n ≤ 127 then e.emit [0x1F, value.toUInt32.toUInt8]
  else e.emit (0x20 :: littleEndianBytes value.toUInt32)

/-- The encodings of a slot instruction: the opcode for slot zero of those with the slot in the opcode, the opcode
with the slot in one byte, and the second opcode byte of the one with the slot in two. -/
structure SlotOpcodes where
  inOpcode : Option UInt8
  short : UInt8
  long : UInt8

/-- A slot instruction in its shortest encoding. -/
def slot (e : Emitter) (opcodes : SlotOpcodes) (index : UInt16) : Emitter :=
  match opcodes.inOpcode with
  | some first =>
      if index.toNat ≤ 3 then e.emit [first + index.toUInt8] else wide
  | none => wide
where
  wide : Emitter :=
    if index.toNat ≤ 255 then e.emit [opcodes.short, index.toUInt8]
    else e.emit [0xFE, opcodes.long, index.toUInt8, UInt8.ofNat (index.toNat / 0x100)]

def ldarg (e : Emitter) (index : UInt16) : Emitter := e.slot ⟨some 0x02, 0x0E, 0x09⟩ index

def starg (e : Emitter) (index : UInt16) : Emitter := e.slot ⟨none, 0x10, 0x0B⟩ index

def ldloc (e : Emitter) (index : UInt16) : Emitter := e.slot ⟨some 0x06, 0x11, 0x0C⟩ index

def stloc (e : Emitter) (index : UInt16) : Emitter := e.slot ⟨some 0x0A, 0x13, 0x0E⟩ index

def call (e : Emitter) (method : Token) : Emitter := e.withToken 0x28 method

def callvirt (e : Emitter) (method : Token) : Emitter := e.withToken 0x6F method

def newobj (e : Emitter) (constructor : Token) : Emitter := e.withToken 0x73 constructor

def ldfld (e : Emitter) (field : Token) : Emitter := e.withToken 0x7B field

def stfld (e : Emitter) (field : Token) : Emitter := e.withToken 0x7D field

def ldstr (e : Emitter) (string : Token) : Emitter := e.withToken 0x72 string

/-- A branch to a label; the opcode decides how many bytes its distance takes. -/
def branch (e : Emitter) (opcode : UInt8) (label : Nat) : Emitter :=
  let wide := !isShortBranch opcode
  let opened := e.op opcode
  let written := opened.emit (List.replicate (if wide then 4 else 1) 0)
  { written with fixups := written.fixups ++ [⟨opened.offset, written.offset, label, wide⟩] }

/-- Protects a range with a handler. -/
def region (e : Emitter) (r : LabelledRegion) : Emitter :=
  { e with regions := e.regions ++ [r] }

/-! ### Finishing -/

/-- The position a label was last bound to. -/
def position (e : Emitter) (label : Nat) : Except Error Nat :=
  match e.labels[label]?.join with
  | some offset => .ok offset
  | none => .error (.image (.unmarkedLabel label))

/-- The bytes of a distance to a position. -/
def distance (fixup : Fixup) (target : Nat) : Except Error (List UInt8) :=
  let delta : Int := target - fixup.next
  if fixup.wide then .ok (littleEndianBytes (Int32.ofInt delta).toUInt32)
  else if -128 ≤ delta ∧ delta ≤ 127 then .ok [(Int32.ofInt delta).toUInt32.toUInt8]
  else .error (.image (.branchTooFar delta))

/-- Puts bytes in place of those from a position on. -/
def overwrite (code : List UInt8) (start : Nat) (bytes : List UInt8) : List UInt8 :=
  code.take start ++ bytes ++ code.drop (start + bytes.length)

/-- Puts a distance into the code. -/
def patch (e : Emitter) (code : List UInt8) (fixup : Fixup) : Except Error (List UInt8) := do
  let target ← e.position fixup.label
  let bytes ← distance fixup target
  return overwrite code fixup.start bytes

/-- A region with its labels replaced by positions. A range that ends before it starts is empty. -/
def placeRegion (e : Emitter) (r : LabelledRegion) : Except Error Region := do
  let tryOffset ← e.position r.tryStart
  let handlerOffset ← e.position r.handlerStart
  let tryEnd ← e.position r.tryEnd
  let handlerEnd ← e.position r.handlerEnd
  return {
    kind := r.kind
    tryOffset := UInt32.ofNat tryOffset
    tryLength := UInt32.ofNat (tryEnd - tryOffset)
    handlerOffset := UInt32.ofNat handlerOffset
    handlerLength := UInt32.ofNat (handlerEnd - handlerOffset)
    catchType := r.catchType }

/-- The code and the regions of the finished body. -/
def finish (e : Emitter) : Except Error (List UInt8 × List Region) := do
  let code ← e.fixups.foldlM e.patch e.code
  let regions ← e.regions.mapM e.placeRegion
  return (code, regions)

end Emitter
end ManagedCode
