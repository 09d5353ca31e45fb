import ManagedCode.Instruction.Basic
import ManagedCode.Error

/-! # Decoding

A body is a sequence of opcodes, each followed by the operand that its shape asks for, in little-endian order.
Branches hold the distance from the byte after them; decoding turns it into a position. Positions are words of 32 bits,
which is what instructions and errors carry; a cursor counts on in a body that has more bytes. A cursor reads one
instruction at a time. It always moves on, also past what it cannot read, so reading can go on after an error:
the opcode is consumed, an operand that is cut short is not. -/

namespace ManagedCode

/-- The operand that an opcode asks for, and the operation it makes of it. -/
inductive Shape where
  | plain (op : Operation)
  | byte (make : UInt8 → Operation)
  | short (make : UInt16 → Operation)
  | word (make : UInt32 → Operation)
  | near (make : Nat → Operation)
  | far (make : Nat → Operation)

namespace Shape

/-- The number of bytes of the operand. -/
def width : Shape → Nat
  | .plain _ => 0
  | .byte _ | .near _ => 1
  | .short _ => 2
  | .word _ | .far _ => 4

def slot (make : UInt16 → Operation) : Shape :=
  .byte fun b => make b.toUInt16

def token (make : Token → Operation) : Shape :=
  .word fun w => make ⟨w⟩

/-- The opcodes of one byte. -/
def oneByte : List (UInt8 × Shape) :=
  [(0x00, .plain .nop),
    (0x02, .plain (.ldarg 0)), (0x03, .plain (.ldarg 1)), (0x04, .plain (.ldarg 2)), (0x05, .plain (.ldarg 3)),
    (0x06, .plain (.ldloc 0)), (0x07, .plain (.ldloc 1)), (0x08, .plain (.ldloc 2)), (0x09, .plain (.ldloc 3)),
    (0x0A, .plain (.stloc 0)), (0x0B, .plain (.stloc 1)), (0x0C, .plain (.stloc 2)), (0x0D, .plain (.stloc 3)),
    (0x0E, slot .ldarg), (0x10, slot .starg), (0x11, slot .ldloc), (0x13, slot .stloc),
    (0x14, .plain .ldnull),
    (0x15, .plain (.ldc (-1))), (0x16, .plain (.ldc 0)), (0x17, .plain (.ldc 1)), (0x18, .plain (.ldc 2)),
    (0x19, .plain (.ldc 3)), (0x1A, .plain (.ldc 4)), (0x1B, .plain (.ldc 5)), (0x1C, .plain (.ldc 6)),
    (0x1D, .plain (.ldc 7)), (0x1E, .plain (.ldc 8)),
    (0x1F, .byte fun b => .ldc b.toInt8.toInt32), (0x20, .word fun w => .ldc w.toInt32),
    (0x25, .plain .dup), (0x26, .plain .pop), (0x28, token .call), (0x2A, .plain .ret),
    (0x2B, .near .br), (0x2C, .near .brfalse), (0x2D, .near .brtrue),
    (0x2E, .near (.branch .eq)), (0x2F, .near (.branch .ge)), (0x30, .near (.branch .gt)),
    (0x31, .near (.branch .le)), (0x32, .near (.branch .lt)), (0x33, .near (.branch .ne)),
    (0x38, .far .br), (0x39, .far .brfalse), (0x3A, .far .brtrue),
    (0x3B, .far (.branch .eq)), (0x3C, .far (.branch .ge)), (0x3D, .far (.branch .gt)),
    (0x3E, .far (.branch .le)), (0x3F, .far (.branch .lt)), (0x40, .far (.branch .ne)),
    (0x58, .plain (.arith .add)), (0x59, .plain (.arith .sub)), (0x5A, .plain (.arith .mul)),
    (0x5B, .plain (.arith .div)), (0x5D, .plain (.arith .rem)), (0x65, .plain .neg),
    (0x6F, token .callvirt), (0x72, token .ldstr), (0x73, token .newobj), (0x7A, .plain .throw),
    (0x7B, token .ldfld), (0x7D, token .stfld),
    (0xDC, .plain .endfinally), (0xDD, .far .leave), (0xDE, .near .leave)]

/-- The second bytes of the opcodes that start with the lead byte. -/
def extended : List (UInt8 × Shape) :=
  [(0x01, .plain .ceq), (0x02, .plain .cgt), (0x04, .plain .clt),
    (0x09, .short .ldarg), (0x0B, .short .starg), (0x0C, .short .ldloc), (0x0E, .short .stloc)]

/-- The byte that two-byte opcodes start with. -/
def lead : UInt8 := 0xFE

end Shape

/-- The number that two bytes hold, the lower one first. -/
def littleEndian16 (a b : UInt8) : UInt16 :=
  UInt16.ofNat (a.toNat + b.toNat * 0x100)

/-- The number that four bytes hold, the lowest one first. -/
def littleEndian32 (a b c d : UInt8) : UInt32 :=
  UInt32.ofNat (a.toNat + b.toNat * 0x100 + c.toNat * 0x10000 + d.toNat * 0x1000000)

/-- The number of positions that a word of 32 bits tells apart. -/
def positionLimit : Nat := 0x100000000

/-- The word that stands for a position: the position itself if it is below the limit. -/
def positionWord (position : Nat) : Nat := position % positionLimit

theorem positionWord_lt (position : Nat) : positionWord position < positionLimit :=
  Nat.mod_lt _ (by decide)

theorem positionWord_of_lt {position : Nat} (h : position < positionLimit) : positionWord position = position :=
  Nat.mod_eq_of_lt h

/-- The number of bytes before a cursor and the bytes from there on. -/
structure Cursor where
  offset : Nat
  rest : List UInt8
  deriving DecidableEq, Repr

namespace Cursor

def start (code : List UInt8) : Cursor := ⟨0, code⟩

def atEnd (c : Cursor) : Bool := c.rest.isEmpty

/-- The branch of the instruction at `start` whose bytes end at `next`. -/
def branchTo (start next : Nat) (delta : Int) (make : Nat → Operation) : Except Error Operation :=
  let target := next + delta
  if 0 ≤ target ∧ target < positionLimit then .ok (make target.toNat)
  else .error (.malformedBody (.targetOutOfRange start target))

/-- Reads the operand of the instruction at `start`, the cursor standing after its opcode. -/
def operand (c : Cursor) (start : Nat) (shape : Shape) : Except Error Operation × Cursor :=
  match shape, c.rest with
  | .plain op, _ => (.ok op, c)
  | .byte make, a :: rest => (.ok (make a), ⟨c.offset + 1, rest⟩)
  | .short make, a :: b :: rest => (.ok (make (littleEndian16 a b)), ⟨c.offset + 2, rest⟩)
  | .word make, a :: b :: d :: e :: rest => (.ok (make (littleEndian32 a b d e)), ⟨c.offset + 4, rest⟩)
  | .near make, a :: rest => (branchTo start (c.offset + 1) a.toInt8.toInt make, ⟨c.offset + 1, rest⟩)
  | .far make, a :: b :: d :: e :: rest =>
      (branchTo start (c.offset + 4) (littleEndian32 a b d e).toInt32.toInt make, ⟨c.offset + 4, rest⟩)
  | _, _ => (.error (.malformedBody (.truncated start)), c)

/-- Reads the operand if the opcode is one. -/
def complete (c : Cursor) (start : Nat) (byte : UInt8) (isExtended : Bool) (shape : Option Shape) :
    Except Error (Option Instruction) × Cursor :=
  match shape with
  | none => (.error (.unsupportedInstruction start byte isExtended), c)
  | some shape =>
      match c.operand start shape with
      | (.ok op, c') => (.ok (some ⟨start, op⟩), c')
      | (.error e, c') => (.error e, c')

/-- Reads the next instruction; at the end of the body there is none. -/
def next (c : Cursor) : Except Error (Option Instruction) × Cursor :=
  match c.rest with
  | [] => (.ok none, c)
  | byte :: rest =>
      if byte = Shape.lead then
        match rest with
        | [] => (.error (.malformedBody (.truncated (positionWord c.offset))), ⟨c.offset + 1, []⟩)
        | second :: rest =>
            complete ⟨c.offset + 2, rest⟩ (positionWord c.offset) second true (Shape.extended.lookup second)
      else complete ⟨c.offset + 1, rest⟩ (positionWord c.offset) byte false (Shape.oneByte.lookup byte)

theorem length_operand_le (c : Cursor) (start : Nat) (shape : Shape) :
    (c.operand start shape).2.rest.length ≤ c.rest.length := by
  unfold operand
  split <;> simp_all <;> omega

theorem length_complete_le (c : Cursor) (start : Nat) (byte : UInt8) (isExtended : Bool) (shape : Option Shape) :
    (c.complete start byte isExtended shape).2.rest.length ≤ c.rest.length := by
  unfold complete
  split
  · simp
  · next s =>
    have := length_operand_le c start s
    split <;> simp_all

/-- Reading an instruction uses up bytes. -/
theorem length_next_lt {c c' : Cursor} {i : Instruction} (h : c.next = (.ok (some i), c')) :
    c'.rest.length < c.rest.length := by
  unfold next at h
  split at h
  · simp at h
  · next byte rest hc =>
    rw [hc]
    split at h
    · split at h
      · simp at h
      · next second rest' =>
        have := length_complete_le ⟨c.offset + 2, rest'⟩ (positionWord c.offset) second true
          (Shape.extended.lookup second)
        rw [h] at this
        simp at this ⊢
        omega
    · have := length_complete_le ⟨c.offset + 1, rest⟩ (positionWord c.offset) byte false
        (Shape.oneByte.lookup byte)
      rw [h] at this
      simp at this ⊢
      omega

/-- All instructions from the cursor on, or the first error. -/
def readAll (c : Cursor) : Except Error (List Instruction) :=
  match h : c.next with
  | (.error e, _) => .error e
  | (.ok none, _) => .ok []
  | (.ok (some i), c') =>
      have := length_next_lt h
      (readAll c').map (i :: ·)
termination_by c.rest.length

end Cursor

/-- The instructions of a whole body. -/
def decode (code : List UInt8) : Except Error (List Instruction) :=
  (Cursor.start code).readAll

end ManagedCode
