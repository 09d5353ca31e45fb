import ManagedCode.Proofs.Computations

/-! The opcodes, listed apart from the tables of the decoder: those that hold their operand or have none, those with an
operand of one byte, of two or of four, and those that start with the lead byte. The tables hold the same opcodes. -/

namespace ManagedCode

/-! ### The listing -/

/-- The operations without an operand, by their opcodes of one byte. -/
def basicOpcodes : List (UInt8 × Operation) :=
  [(0x00, .nop), (0x14, .ldnull), (0x25, .dup), (0x26, .pop), (0x2A, .ret), (0x58, .arith .add), (0x59, .arith .sub),
    (0x5A, .arith .mul), (0x5B, .arith .div), (0x5D, .arith .rem), (0x65, .neg), (0x7A, .throw), (0xDC, .endfinally)]

/-- The operations on a slot, by the first of the four opcodes that hold the slot. -/
def slotMacros : List (UInt8 × (UInt16 → Operation)) :=
  [(0x02, .ldarg), (0x06, .ldloc), (0x0A, .stloc)]

/-- The operations on a slot, by the opcodes before a slot of one byte. -/
def shortSlots : List (UInt8 × (UInt16 → Operation)) :=
  [(0x0E, .ldarg), (0x10, .starg), (0x11, .ldloc), (0x13, .stloc)]

/-- The operations on a slot, by the second bytes of the opcodes before a slot of two bytes. -/
def longSlots : List (UInt8 × (UInt16 → Operation)) :=
  [(0x09, .ldarg), (0x0B, .starg), (0x0C, .ldloc), (0x0E, .stloc)]

/-- The branches, by the opcodes before a distance of one byte. -/
def nearBranches : List (UInt8 × (Nat → Operation)) :=
  [(0x2B, .br), (0x2C, .brfalse), (0x2D, .brtrue), (0x2E, .branch .eq), (0x2F, .branch .ge), (0x30, .branch .gt),
    (0x31, .branch .le), (0x32, .branch .lt), (0x33, .branch .ne), (0xDE, .leave)]

/-- The branches, by the opcodes before a distance of four bytes. -/
def farBranches : List (UInt8 × (Nat → Operation)) :=
  [(0x38, .br), (0x39, .brfalse), (0x3A, .brtrue), (0x3B, .branch .eq), (0x3C, .branch .ge), (0x3D, .branch .gt),
    (0x3E, .branch .le), (0x3F, .branch .lt), (0x40, .branch .ne), (0xDD, .leave)]

/-- The comparisons, by the second byte of their opcodes. -/
def comparisons : List (UInt8 × Operation) :=
  [(0x01, .ceq), (0x02, .cgt), (0x04, .clt)]

/-- The operations on a token, by their opcodes. -/
def tokenOperations : List (UInt8 × (Token → Operation)) :=
  [(0x28, .call), (0x6F, .callvirt), (0x72, .ldstr), (0x73, .newobj), (0x7B, .ldfld), (0x7D, .stfld)]

/-- The opcodes that hold their operand: those of the first slots and of the small constants. -/
def macroOpcodes : List (UInt8 × Operation) :=
  (slotMacros.flatMap fun (first, make) =>
      (List.range 4).map fun k => (first + UInt8.ofNat k, make (UInt16.ofNat k))) ++
    (List.range 10).map fun k => (0x15 + UInt8.ofNat k, .ldc (Int32.ofInt (k - 1)))

/-- The operation of an opcode of one byte that no operand follows. -/
def plainOperation? (opcode : UInt8) : Option Operation :=
  (basicOpcodes ++ macroOpcodes).lookup opcode

/-- The operation of an opcode of one byte that branches to a position. -/
def branchOperation? (opcode : UInt8) : Option (Nat → Operation) :=
  (nearBranches ++ farBranches).lookup opcode

theorem mem_macroOpcodes {opcode : UInt8} {op : Operation} : (opcode, op) ∈ macroOpcodes ↔
    (∃ first make, (first, make) ∈ slotMacros ∧ ∃ k < 4, opcode = first + UInt8.ofNat k ∧ op = make (UInt16.ofNat k)) ∨
      ∃ k < 10, opcode = 0x15 + UInt8.ofNat k ∧ op = .ldc (Int32.ofInt (k - 1)) := by
  simp only [macroOpcodes, List.mem_append, List.mem_flatMap, List.mem_map, List.mem_range, Prod.exists, Prod.mk.injEq]
  simp only [eq_comm]

/-! ### The listing and the tables -/

namespace Shape

theorem mem_near {opcode : UInt8} {make : Nat → Operation} :
    (opcode, near make) ∈ oneByte ↔ (opcode, make) ∈ nearBranches := by
  simp [oneByte, nearBranches, slot, token]

theorem mem_far {opcode : UInt8} {make : Nat → Operation} :
    (opcode, far make) ∈ oneByte ↔ (opcode, make) ∈ farBranches := by
  simp [oneByte, farBranches, slot, token]

theorem mem_byte {opcode : UInt8} {make : UInt8 → Operation} : (opcode, byte make) ∈ oneByte ↔
    (∃ make', (opcode, make') ∈ shortSlots ∧ make = fun b => make' b.toUInt16) ∨
      opcode = 0x1F ∧ make = fun b => .ldc b.toInt8.toInt32 := by
  simp [oneByte, shortSlots, slot, token, or_and_right, exists_or, or_assoc, and_assoc]

theorem mem_word {opcode : UInt8} {make : UInt32 → Operation} : (opcode, word make) ∈ oneByte ↔
    (opcode = 0x20 ∧ make = fun w => .ldc w.toInt32) ∨
      ∃ make', (opcode, make') ∈ tokenOperations ∧ make = fun w => make' ⟨w⟩ := by
  simp [oneByte, tokenOperations, slot, token, or_and_right, exists_or, and_assoc]

theorem not_mem_short {opcode : UInt8} {make : UInt16 → Operation} : (opcode, short make) ∉ oneByte := by
  simp [oneByte, slot, token]

theorem mem_extended {opcode : UInt8} {shape : Shape} : (opcode, shape) ∈ extended ↔
    (∃ op, (opcode, op) ∈ comparisons ∧ shape = plain op) ∨
      ∃ make, (opcode, make) ∈ longSlots ∧ shape = short make := by
  simp [extended, comparisons, longSlots, or_and_right, exists_or, and_assoc, or_assoc]

/-- The entry of an opcode without operand bytes. -/
def operandless? : UInt8 × Shape → Option (UInt8 × Operation)
  | (opcode, plain op) => some (opcode, op)
  | _ => none

theorem operandless?_eq_some {entry : UInt8 × Shape} {opcode : UInt8} {op : Operation} :
    operandless? entry = some (opcode, op) ↔ entry = (opcode, plain op) := by
  obtain ⟨opcode', shape⟩ := entry
  cases shape <;> simp [operandless?]

theorem operandless_listed :
    (∀ entry ∈ oneByte.filterMap operandless?, entry ∈ basicOpcodes ++ macroOpcodes) ∧
      ∀ entry ∈ basicOpcodes ++ macroOpcodes, entry ∈ oneByte.filterMap operandless? := by
  decide

theorem mem_plain {opcode : UInt8} {op : Operation} :
    (opcode, plain op) ∈ oneByte ↔ (opcode, op) ∈ basicOpcodes ++ macroOpcodes := by
  have hentry : (opcode, plain op) ∈ oneByte ↔ (opcode, op) ∈ oneByte.filterMap operandless? := by
    simp only [List.mem_filterMap, operandless?_eq_some, exists_eq_right]
  rw [hentry]
  exact ⟨operandless_listed.1 _, operandless_listed.2 _⟩

theorem lookup_oneByte {opcode : UInt8} {shape : Shape} :
    oneByte.lookup opcode = some shape ↔ (opcode, shape) ∈ oneByte :=
  ⟨mem_of_lookup_eq_some, lookup_of_mem (by decide)⟩

theorem lookup_extended {opcode : UInt8} {shape : Shape} :
    extended.lookup opcode = some shape ↔ (opcode, shape) ∈ extended :=
  ⟨mem_of_lookup_eq_some, lookup_of_mem (by decide)⟩

end Shape
end ManagedCode
