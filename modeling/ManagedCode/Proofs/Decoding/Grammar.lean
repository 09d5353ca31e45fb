import ManagedCode.Proofs.Emission.Encodings

/-! The encodings of instructions, put together from the listing of the opcodes. What the decoder reads at a position is
an encoding if one starts there. If none does, it gives the reason: an opcode that no encoding has, an encoding that is
cut short, or a branch to a position that no word holds. -/

namespace ManagedCode

/-! ### Encodings -/

/-- The number that bytes hold, the lowest one first. -/
def littleEndian : List UInt8 → Nat
  | [] => 0
  | b :: bytes => b.toNat + 0x100 * littleEndian bytes

/-- The bytes encode the operation, for an instruction at the position. A branch holds the distance to its target from
the position after it. -/
inductive Encodes (offset : Nat) : List UInt8 → Operation → Prop
  | basic {opcode : UInt8} {op : Operation} (hopcode : (opcode, op) ∈ basicOpcodes) : Encodes offset [opcode] op
  | comparison {opcode : UInt8} {op : Operation} (hopcode : (opcode, op) ∈ comparisons) :
      Encodes offset [0xFE, opcode] op
  | slotMacro {first : UInt8} {make : UInt16 → Operation} (hfirst : (first, make) ∈ slotMacros) {k : Nat} (hk : k < 4) :
      Encodes offset [first + UInt8.ofNat k] (make (UInt16.ofNat k))
  | shortSlot {opcode : UInt8} {make : UInt16 → Operation} (hopcode : (opcode, make) ∈ shortSlots) (slot : UInt8) :
      Encodes offset [opcode, slot] (make slot.toUInt16)
  | longSlot {opcode : UInt8} {make : UInt16 → Operation} (hopcode : (opcode, make) ∈ longSlots) {slot : UInt16}
      {a b : UInt8} (hslot : slot.toNat = littleEndian [a, b]) : Encodes offset [0xFE, opcode, a, b] (make slot)
  | constantMacro {k : Nat} (hk : k < 10) : Encodes offset [0x15 + UInt8.ofNat k] (.ldc (Int32.ofInt (k - 1)))
  | shortConstant (value : Int8) : Encodes offset [0x1F, value.toUInt8] (.ldc value.toInt32)
  | longConstant {value : Int32} {a b c d : UInt8} (hvalue : value.toUInt32.toNat = littleEndian [a, b, c, d]) :
      Encodes offset [0x20, a, b, c, d] (.ldc value)
  | token {opcode : UInt8} {make : Token → Operation} (hopcode : (opcode, make) ∈ tokenOperations) {token : Token}
      {a b c d : UInt8} (htoken : token.value.toNat = littleEndian [a, b, c, d]) :
      Encodes offset [opcode, a, b, c, d] (make token)
  | nearBranch {opcode : UInt8} {make : Nat → Operation} (hopcode : (opcode, make) ∈ nearBranches) {delta : Int8}
      {target : Nat} (htarget : (target : Int) = offset + 2 + delta.toInt) (hlimit : target < positionLimit) :
      Encodes offset [opcode, delta.toUInt8] (make target)
  | farBranch {opcode : UInt8} {make : Nat → Operation} (hopcode : (opcode, make) ∈ farBranches) {delta : Int32}
      {a b c d : UInt8} (hdelta : delta.toUInt32.toNat = littleEndian [a, b, c, d]) {target : Nat}
      (htarget : (target : Int) = offset + 5 + delta.toInt) (hlimit : target < positionLimit) :
      Encodes offset [opcode, a, b, c, d] (make target)

/-- Why no encoding starts with the bytes, for an instruction at the position. The error gives the word of it. -/
inductive Refuses (offset : Nat) : List UInt8 → Error → Prop
  | unknown {opcode : UInt8} {rest : List UInt8} (hnone : ∀ start operand op, ¬Encodes start (opcode :: operand) op) :
      Refuses offset (opcode :: rest) (.unsupportedInstruction (positionWord offset) opcode false)
  | unknownExtended {opcode : UInt8} {rest : List UInt8}
      (hnone : ∀ start operand op, ¬Encodes start (0xFE :: opcode :: operand) op) :
      Refuses offset (0xFE :: opcode :: rest) (.unsupportedInstruction (positionWord offset) opcode true)
  | truncated {bytes missing : List UInt8} {start : Nat} {op : Operation} (hbytes : bytes ≠ [])
      (hmissing : missing ≠ []) (hencodes : Encodes start (bytes ++ missing) op) :
      Refuses offset bytes (.malformedBody (.truncated (positionWord offset)))
  | nearBranch {opcode : UInt8} {make : Nat → Operation} (hopcode : (opcode, make) ∈ nearBranches) {delta : Int8}
      {rest : List UInt8} {target : Int} (htarget : target = offset + 2 + delta.toInt)
      (hout : target < 0 ∨ positionLimit ≤ target) :
      Refuses offset (opcode :: delta.toUInt8 :: rest) (.malformedBody (.targetOutOfRange (positionWord offset) target))
  | farBranch {opcode : UInt8} {make : Nat → Operation} (hopcode : (opcode, make) ∈ farBranches) {delta : Int32}
      {a b c d : UInt8} {rest : List UInt8} (hdelta : delta.toUInt32.toNat = littleEndian [a, b, c, d]) {target : Int}
      (htarget : target = offset + 5 + delta.toInt) (hout : target < 0 ∨ positionLimit ≤ target) :
      Refuses offset (opcode :: a :: b :: c :: d :: rest)
        (.malformedBody (.targetOutOfRange (positionWord offset) target))

namespace Shape

/-! ### Operands -/

/-- The bytes from the position on are an operand of the shape and give the operation. -/
inductive Spells (offset : Nat) : Shape → List UInt8 → Operation → Prop
  | plain (op : Operation) : Spells offset (.plain op) [] op
  | byte (make : UInt8 → Operation) (a : UInt8) : Spells offset (.byte make) [a] (make a)
  | short (make : UInt16 → Operation) (a b : UInt8) : Spells offset (.short make) [a, b] (make (littleEndian16 a b))
  | word (make : UInt32 → Operation) (a b c d : UInt8) :
      Spells offset (.word make) [a, b, c, d] (make (littleEndian32 a b c d))
  | near (make : Nat → Operation) (a : UInt8) {target : Nat} (htarget : (target : Int) = offset + 1 + a.toInt8.toInt)
      (hlimit : target < positionLimit) : Spells offset (.near make) [a] (make target)
  | far (make : Nat → Operation) (a b c d : UInt8) {target : Nat}
      (htarget : (target : Int) = offset + 4 + (littleEndian32 a b c d).toInt32.toInt)
      (hlimit : target < positionLimit) : Spells offset (.far make) [a, b, c, d] (make target)

/-- The bytes from the position on start with the distance of a branch to a position that no word holds. -/
inductive Strays (offset : Nat) : Shape → List UInt8 → Int → Prop
  | near (make : Nat → Operation) (a : UInt8) (rest : List UInt8) {target : Int}
      (htarget : target = offset + 1 + a.toInt8.toInt) (hout : target < 0 ∨ positionLimit ≤ target) :
      Strays offset (.near make) (a :: rest) target
  | far (make : Nat → Operation) (a b c d : UInt8) (rest : List UInt8) {target : Int}
      (htarget : target = offset + 4 + (littleEndian32 a b c d).toInt32.toInt)
      (hout : target < 0 ∨ positionLimit ≤ target) : Strays offset (.far make) (a :: b :: c :: d :: rest) target

variable {offset : Nat} {shape : Shape} {bytes : List UInt8} {op : Operation}

theorem Spells.length (h : shape.Spells offset bytes op) : bytes.length = shape.width := by
  cases h <;> rfl

end Shape

theorem branchTo_of_target {start next target : Nat} {delta : Int} (htarget : (target : Int) = next + delta)
    (hlimit : target < positionLimit) (make : Nat → Operation) :
    Cursor.branchTo start next delta make = .ok (make target) := by
  have hrange : (0 : Int) ≤ target ∧ (target : Int) < positionLimit := by omega
  simp only [Cursor.branchTo, ← htarget, if_pos hrange, Int.toNat_natCast]

theorem branchTo_of_out {start next : Nat} {delta target : Int} (htarget : target = next + delta)
    (hout : target < 0 ∨ positionLimit ≤ target) (make : Nat → Operation) :
    Cursor.branchTo start next delta make = .error (.malformedBody (.targetOutOfRange start target)) := by
  have hrange : ¬(0 ≤ target ∧ target < positionLimit) := by omega
  simp only [Cursor.branchTo, ← htarget, if_neg hrange]

namespace Shape

variable {offset start : Nat} {shape : Shape} {bytes : List UInt8} {op : Operation}

theorem Spells.operandAs (h : shape.Spells offset bytes op) : OperandAs offset start shape bytes op := by
  intro rest
  cases h with
  | plain op => rfl
  | byte make a => rfl
  | short make a b => rfl
  | word make a b c d => rfl
  | near make a htarget hlimit =>
      simp only [Cursor.operand, List.cons_append, List.nil_append]
      rw [branchTo_of_target (by exact_mod_cast htarget) hlimit]
      rfl
  | far make a b c d htarget hlimit =>
      simp only [Cursor.operand, List.cons_append, List.nil_append]
      rw [branchTo_of_target (by exact_mod_cast htarget) hlimit]
      rfl

theorem Strays.operand {target : Int} (h : shape.Strays offset bytes target) :
    (Cursor.operand ⟨offset, bytes⟩ start shape).1 = .error (.malformedBody (.targetOutOfRange start target)) := by
  cases h with
  | near make a rest htarget hout => exact branchTo_of_out (by exact_mod_cast htarget) hout make
  | far make a b c d rest htarget hout => exact branchTo_of_out (by exact_mod_cast htarget) hout make

theorem operand_truncated (h : bytes.length < shape.width) :
    (Cursor.operand ⟨offset, bytes⟩ start shape).1 = .error (.malformedBody (.truncated start)) := by
  unfold Cursor.operand
  split <;> simp_all [width] <;> omega

theorem exists_position (target : Int) :
    (∃ position : Nat, (position : Int) = target ∧ position < positionLimit) ∨ target < 0 ∨ positionLimit ≤ target := by
  by_cases hrange : 0 ≤ target ∧ target < positionLimit
  · exact Or.inl ⟨target.toNat, by omega, by omega⟩
  · exact Or.inr (by omega)

/-- An operand is there, or its bytes are but it is a branch to nowhere, or it is cut short. -/
theorem operand_cases (offset : Nat) (shape : Shape) (bytes : List UInt8) :
    (∃ operand rest op, bytes = operand ++ rest ∧ shape.Spells offset operand op) ∨
      (∃ target, shape.Strays offset bytes target) ∨ bytes.length < shape.width := by
  cases shape with
  | plain op => exact Or.inl ⟨[], bytes, op, rfl, .plain op⟩
  | byte make =>
      match bytes with
      | [] => exact Or.inr (Or.inr (by simp [width]))
      | a :: rest => exact Or.inl ⟨[a], rest, _, rfl, .byte make a⟩
  | short make =>
      match bytes with
      | [] | [_] => exact Or.inr (Or.inr (by simp [width]))
      | a :: b :: rest => exact Or.inl ⟨[a, b], rest, _, rfl, .short make a b⟩
  | word make =>
      match bytes with
      | [] | [_] | [_, _] | [_, _, _] => exact Or.inr (Or.inr (by simp [width]))
      | a :: b :: c :: d :: rest => exact Or.inl ⟨[a, b, c, d], rest, _, rfl, .word make a b c d⟩
  | near make =>
      match bytes with
      | [] => exact Or.inr (Or.inr (by simp [width]))
      | a :: rest =>
          rcases exists_position (offset + 1 + a.toInt8.toInt) with ⟨target, htarget, hlimit⟩ | hout
          · exact Or.inl ⟨[a], rest, _, rfl, .near make a htarget hlimit⟩
          · exact Or.inr (Or.inl ⟨_, .near make a rest rfl hout⟩)
  | far make =>
      match bytes with
      | [] | [_] | [_, _] | [_, _, _] => exact Or.inr (Or.inr (by simp [width]))
      | a :: b :: c :: d :: rest =>
          rcases exists_position (offset + 4 + (littleEndian32 a b c d).toInt32.toInt) with
            ⟨target, htarget, hlimit⟩ | hout
          · exact Or.inl ⟨[a, b, c, d], rest, _, rfl, .far make a b c d htarget hlimit⟩
          · exact Or.inr (Or.inl ⟨_, .far make a b c d rest rfl hout⟩)

end Shape

/-! ### Encodings as opcode and operand -/

theorem toNat_littleEndian16 (a b : UInt8) : (littleEndian16 a b).toNat = littleEndian [a, b] := by
  have ha := a.toNat_lt
  have hb := b.toNat_lt
  simp only [littleEndian16, UInt16.toNat_ofNat', littleEndian]
  omega

theorem toNat_littleEndian32 (a b c d : UInt8) : (littleEndian32 a b c d).toNat = littleEndian [a, b, c, d] := by
  have ha := a.toNat_lt
  have hb := b.toNat_lt
  have hc := c.toNat_lt
  have hd := d.toNat_lt
  simp only [littleEndian32, UInt32.toNat_ofNat', littleEndian]
  omega

theorem eq_littleEndian16 {w : UInt16} {a b : UInt8} (h : w.toNat = littleEndian [a, b]) : w = littleEndian16 a b :=
  UInt16.toNat_inj.1 (h.trans (toNat_littleEndian16 a b).symm)

theorem eq_littleEndian32 {w : UInt32} {a b c d : UInt8} (h : w.toNat = littleEndian [a, b, c, d]) :
    w = littleEndian32 a b c d :=
  UInt32.toNat_inj.1 (h.trans (toNat_littleEndian32 a b c d).symm)

theorem toInt32_littleEndian32 {v : Int32} {a b c d : UInt8} (h : v.toUInt32.toNat = littleEndian [a, b, c, d]) :
    v = (littleEndian32 a b c d).toInt32 := by
  rw [← eq_littleEndian32 h, Int32.toInt32_toUInt32]

variable {offset : Nat} {opcode : UInt8} {shape : Shape} {bytes operand : List UInt8} {op : Operation}

theorem encodes_oneByte (hopcode : (opcode, shape) ∈ Shape.oneByte) (h : shape.Spells (offset + 1) operand op) :
    Encodes offset (opcode :: operand) op := by
  cases h with
  | plain op =>
      rcases List.mem_append.1 (Shape.mem_plain.1 hopcode) with hbasic | hmacro
      · exact .basic hbasic
      · rcases mem_macroOpcodes.1 hmacro with ⟨first, make, hfirst, k, hk, rfl, rfl⟩ | ⟨k, hk, rfl, rfl⟩
        · exact .slotMacro hfirst hk
        · exact .constantMacro hk
  | byte make a =>
      rcases Shape.mem_byte.1 hopcode with ⟨make', hslot, rfl⟩ | ⟨rfl, rfl⟩
      · exact .shortSlot hslot a
      · have hconstant : Encodes offset [0x1F, a.toInt8.toUInt8] (.ldc a.toInt8.toInt32) := .shortConstant a.toInt8
        rwa [UInt8.toUInt8_toInt8] at hconstant
  | short make a b => exact absurd hopcode Shape.not_mem_short
  | word make a b c d =>
      rcases Shape.mem_word.1 hopcode with ⟨rfl, rfl⟩ | ⟨make', htoken, rfl⟩
      · refine .longConstant ?_
        rw [UInt32.toUInt32_toInt32, toNat_littleEndian32]
      · exact .token htoken (toNat_littleEndian32 a b c d)
  | near make a htarget hlimit =>
      have hbranch : Encodes offset [opcode, a.toInt8.toUInt8] _ :=
        .nearBranch (Shape.mem_near.1 hopcode) (by omega) hlimit
      rwa [UInt8.toUInt8_toInt8] at hbranch
  | far make a b c d htarget hlimit =>
      have hdelta : (littleEndian32 a b c d).toInt32.toUInt32.toNat = littleEndian [a, b, c, d] := by
        rw [UInt32.toUInt32_toInt32, toNat_littleEndian32]
      exact .farBranch (Shape.mem_far.1 hopcode) hdelta (by omega) hlimit

theorem encodes_extended (hopcode : (opcode, shape) ∈ Shape.extended) (h : shape.Spells (offset + 2) operand op) :
    Encodes offset (Shape.lead :: opcode :: operand) op := by
  rcases Shape.mem_extended.1 hopcode with ⟨op', hcomparison, rfl⟩ | ⟨make, hslot, rfl⟩
  · cases h with
    | plain => exact .comparison hcomparison
  · cases h with
    | short _ a b => exact .longSlot hslot (toNat_littleEndian16 a b)

/-- An encoding is an opcode of the tables with an operand of its shape. -/
theorem Encodes.formed (h : Encodes offset bytes op) :
    (∃ opcode shape operand, bytes = opcode :: operand ∧ (opcode, shape) ∈ Shape.oneByte ∧
        shape.Spells (offset + 1) operand op) ∨
      ∃ opcode shape operand, bytes = Shape.lead :: opcode :: operand ∧ (opcode, shape) ∈ Shape.extended ∧
        shape.Spells (offset + 2) operand op := by
  cases h with
  | basic hopcode =>
      exact Or.inl ⟨_, _, _, rfl, Shape.mem_plain.2 (List.mem_append_left _ hopcode), .plain op⟩
  | comparison hopcode => exact Or.inr ⟨_, _, _, rfl, Shape.mem_extended.2 (Or.inl ⟨op, hopcode, rfl⟩), .plain op⟩
  | slotMacro hfirst hk =>
      have hmacro := mem_macroOpcodes.2 (Or.inl ⟨_, _, hfirst, _, hk, rfl, rfl⟩)
      exact Or.inl ⟨_, _, _, rfl, Shape.mem_plain.2 (List.mem_append_right _ hmacro), .plain _⟩
  | shortSlot hopcode slot =>
      exact Or.inl ⟨_, _, _, rfl, Shape.mem_byte.2 (Or.inl ⟨_, hopcode, rfl⟩), .byte _ slot⟩
  | longSlot hopcode hslot =>
      obtain rfl := eq_littleEndian16 hslot
      exact Or.inr ⟨_, _, _, rfl, Shape.mem_extended.2 (Or.inr ⟨_, hopcode, rfl⟩), .short _ _ _⟩
  | constantMacro hk =>
      have hmacro := mem_macroOpcodes.2 (Or.inr ⟨_, hk, rfl, rfl⟩)
      exact Or.inl ⟨_, _, _, rfl, Shape.mem_plain.2 (List.mem_append_right _ hmacro), .plain _⟩
  | shortConstant value =>
      have hspells : (Shape.byte fun b => .ldc b.toInt8.toInt32).Spells (offset + 1) [value.toUInt8]
          (.ldc value.toUInt8.toInt8.toInt32) := .byte _ _
      rw [Int8.toInt8_toUInt8] at hspells
      exact Or.inl ⟨_, _, _, rfl, Shape.mem_byte.2 (Or.inr ⟨rfl, rfl⟩), hspells⟩
  | longConstant hvalue =>
      obtain rfl := toInt32_littleEndian32 hvalue
      exact Or.inl ⟨_, _, _, rfl, Shape.mem_word.2 (Or.inl ⟨rfl, rfl⟩), .word _ _ _ _ _⟩
  | @token _ _ hopcode token _ _ _ _ htoken =>
      obtain ⟨value⟩ := token
      obtain rfl := eq_littleEndian32 htoken
      exact Or.inl ⟨_, _, _, rfl, Shape.mem_word.2 (Or.inr ⟨_, hopcode, rfl⟩), .word _ _ _ _ _⟩
  | nearBranch hopcode htarget hlimit =>
      refine Or.inl ⟨_, _, _, rfl, Shape.mem_near.2 hopcode, .near _ _ ?_ hlimit⟩
      rw [Int8.toInt8_toUInt8]
      omega
  | farBranch hopcode hdelta htarget hlimit =>
      obtain rfl := toInt32_littleEndian32 hdelta
      exact Or.inl ⟨_, _, _, rfl, Shape.mem_far.2 hopcode, .far _ _ _ _ _ (by omega) hlimit⟩

theorem Encodes.readsAs (h : Encodes offset bytes op) : ReadsAs offset bytes op := by
  rcases h.formed with ⟨opcode, shape, operand, rfl, hopcode, hspells⟩ | ⟨opcode, shape, operand, rfl, hopcode, hspells⟩
  · exact hspells.operandAs.oneByte (Shape.lookup_oneByte.2 hopcode)
  · exact hspells.operandAs.extended (Shape.lookup_extended.2 hopcode)

/-! ### Refusals -/

/-- Where the position is far enough from both ends, all bytes of the right number are an operand. -/
theorem Shape.exists_spells (h : operand.length = shape.width) : ∃ op, shape.Spells 0x7FFFFFFC operand op := by
  rcases operand_cases 0x7FFFFFFC shape operand with ⟨bytes, rest, op, rfl, hspells⟩ | ⟨target, hstrays⟩ | hshort
  · have hrest : rest = [] := by
      rw [List.length_append, hspells.length] at h
      exact List.length_eq_zero_iff.1 (by omega)
    rw [hrest, List.append_nil]
    exact ⟨op, hspells⟩
  · cases hstrays with
    | near make a rest htarget hout =>
        have hlow := a.toInt8.le_toInt
        have hhigh := a.toInt8.toInt_lt
        simp only [positionLimit] at hout
        omega
    | far make a b c d rest htarget hout =>
        have hlow := (littleEndian32 a b c d).toInt32.le_toInt
        have hhigh := (littleEndian32 a b c d).toInt32.toInt_lt
        simp only [positionLimit] at hout
        omega
  · omega

/-- An operand that is cut short can be completed. -/
theorem Shape.exists_completion (h : operand.length ≤ shape.width) :
    ∃ missing op, missing.length = shape.width - operand.length ∧ shape.Spells 0x7FFFFFFC (operand ++ missing) op := by
  have hlength : (operand ++ List.replicate (shape.width - operand.length) 0).length = shape.width := by
    rw [List.length_append, List.length_replicate]
    omega
  obtain ⟨op, hspells⟩ := exists_spells hlength
  exact ⟨_, op, List.length_replicate, hspells⟩

theorem exists_encodes_oneByte (hopcode : (opcode, shape) ∈ Shape.oneByte) (h : operand.length ≤ shape.width) :
    ∃ start missing op, missing.length = shape.width - operand.length ∧
      Encodes start (opcode :: operand ++ missing) op := by
  obtain ⟨missing, op, hlength, hspells⟩ := Shape.exists_completion h
  exact ⟨0x7FFFFFFB, missing, op, hlength, encodes_oneByte hopcode hspells⟩

theorem exists_encodes_extended (hopcode : (opcode, shape) ∈ Shape.extended) (h : operand.length ≤ shape.width) :
    ∃ start missing op, missing.length = shape.width - operand.length ∧
      Encodes start (Shape.lead :: opcode :: operand ++ missing) op := by
  obtain ⟨missing, op, hlength, hspells⟩ := Shape.exists_completion h
  exact ⟨0x7FFFFFFA, missing, op, hlength, encodes_extended hopcode hspells⟩

theorem lead_not_mem : (Shape.lead, shape) ∉ Shape.oneByte := by
  intro hmem
  have hnone : (Shape.oneByte.lookup Shape.lead).isSome = false := by decide
  rw [Shape.lookup_oneByte.2 hmem] at hnone
  cases hnone

theorem next_oneByte (hopcode : (opcode, shape) ∈ Shape.oneByte) (bytes : List UInt8) :
    Cursor.next ⟨offset, opcode :: bytes⟩ =
      Cursor.complete ⟨offset + 1, bytes⟩ (positionWord offset) opcode false (some shape) := by
  have hlead : opcode ≠ Shape.lead := by
    rintro rfl
    exact lead_not_mem hopcode
  simp only [Cursor.next, if_neg hlead, Shape.lookup_oneByte.2 hopcode]

theorem next_extended (hopcode : (opcode, shape) ∈ Shape.extended) (bytes : List UInt8) :
    Cursor.next ⟨offset, Shape.lead :: opcode :: bytes⟩ =
      Cursor.complete ⟨offset + 2, bytes⟩ (positionWord offset) opcode true (some shape) := by
  simp only [Cursor.next, if_true, Shape.lookup_extended.2 hopcode]

theorem Cursor.complete_of_error {c : Cursor} {start : Nat} {isExtended : Bool} {e : Error}
    (h : (c.operand start shape).1 = .error e) :
    (c.complete start opcode isExtended (some shape)).1 = .error e := by
  simp only [complete]
  generalize c.operand start shape = r at h ⊢
  obtain ⟨r, c'⟩ := r
  obtain rfl : r = .error e := h
  rfl

/-- The decoder gives the reason. -/
theorem Refuses.next {e : Error} (h : Refuses offset bytes e) : (Cursor.next ⟨offset, bytes⟩).1 = .error e := by
  cases h with
  | @unknown opcode rest hnone =>
      have hlead : opcode ≠ Shape.lead := by
        rintro rfl
        exact hnone 0 [0x01] .ceq (.comparison (by decide))
      have hlookup : Shape.oneByte.lookup opcode = none := by
        refine Option.eq_none_iff_forall_ne_some.2 fun shape hshape => ?_
        have hempty : ([] : List UInt8).length ≤ shape.width := Nat.zero_le _
        obtain ⟨start, operand, op, -, hencodes⟩ := exists_encodes_oneByte (Shape.lookup_oneByte.1 hshape) hempty
        exact hnone start operand op hencodes
      simp only [Cursor.next, if_neg hlead, hlookup, Cursor.complete]
  | @unknownExtended opcode rest hnone =>
      have hlookup : Shape.extended.lookup opcode = none := by
        refine Option.eq_none_iff_forall_ne_some.2 fun shape hshape => ?_
        have hempty : ([] : List UInt8).length ≤ shape.width := Nat.zero_le _
        obtain ⟨start, operand, op, -, hencodes⟩ := exists_encodes_extended (Shape.lookup_extended.1 hshape) hempty
        exact hnone start operand op hencodes
      change (Cursor.next ⟨offset, Shape.lead :: opcode :: rest⟩).1 = _
      simp only [Cursor.next, if_true, hlookup, Cursor.complete]
  | @truncated bytes missing start op hbytes hmissing hencodes =>
      have hmore : 0 < missing.length := List.length_pos_iff.2 hmissing
      rcases hencodes.formed with ⟨opcode, shape, operand, heq, hopcode, hspells⟩ |
        ⟨opcode, shape, operand, heq, hopcode, hspells⟩
      · obtain ⟨first, bytes, rfl⟩ := List.exists_cons_of_ne_nil hbytes
        rw [List.cons_append] at heq
        obtain ⟨rfl, rfl⟩ := List.cons.inj heq
        have hlength := hspells.length
        rw [List.length_append] at hlength
        rw [next_oneByte hopcode]
        exact Cursor.complete_of_error (Shape.operand_truncated (by omega))
      · obtain ⟨first, tail, rfl⟩ := List.exists_cons_of_ne_nil hbytes
        obtain ⟨rfl, htail⟩ := List.cons.inj heq
        cases tail with
        | nil => rfl
        | cons second bytes =>
            rw [List.append_eq, List.cons_append] at htail
            obtain ⟨rfl, rfl⟩ := List.cons.inj htail
            have hlength := hspells.length
            rw [List.length_append] at hlength
            rw [next_extended hopcode]
            exact Cursor.complete_of_error (Shape.operand_truncated (by omega))
  | nearBranch hopcode htarget hout =>
      rw [next_oneByte (Shape.mem_near.2 hopcode)]
      refine Cursor.complete_of_error (Shape.Strays.operand (.near _ _ _ ?_ hout))
      rw [Int8.toInt8_toUInt8]
      omega
  | farBranch hopcode hdelta htarget hout =>
      obtain rfl := toInt32_littleEndian32 hdelta
      rw [next_oneByte (Shape.mem_far.2 hopcode)]
      exact Cursor.complete_of_error (Shape.Strays.operand (.far _ _ _ _ _ _ (by omega) hout))

/-! ### What stands at a position -/

theorem truncated_oneByte (hopcode : (opcode, shape) ∈ Shape.oneByte) (h : operand.length < shape.width) :
    Refuses offset (opcode :: operand) (.malformedBody (.truncated (positionWord offset))) := by
  obtain ⟨start, missing, op, hlength, hencodes⟩ := exists_encodes_oneByte hopcode (Nat.le_of_lt h)
  exact .truncated (List.cons_ne_nil _ _) (List.length_pos_iff.1 (by omega)) hencodes

theorem truncated_extended (hopcode : (opcode, shape) ∈ Shape.extended) (h : operand.length < shape.width) :
    Refuses offset (Shape.lead :: opcode :: operand) (.malformedBody (.truncated (positionWord offset))) := by
  obtain ⟨start, missing, op, hlength, hencodes⟩ := exists_encodes_extended hopcode (Nat.le_of_lt h)
  exact .truncated (List.cons_ne_nil _ _) (List.length_pos_iff.1 (by omega)) hencodes

theorem strays_oneByte (hopcode : (opcode, shape) ∈ Shape.oneByte) {target : Int}
    (h : shape.Strays (offset + 1) bytes target) :
    Refuses offset (opcode :: bytes) (.malformedBody (.targetOutOfRange (positionWord offset) target)) := by
  cases h with
  | near make a rest htarget hout =>
      have hrefuses : Refuses offset (opcode :: a.toInt8.toUInt8 :: rest)
          (.malformedBody (.targetOutOfRange (positionWord offset) target)) :=
        .nearBranch (Shape.mem_near.1 hopcode) (by omega) hout
      rwa [UInt8.toUInt8_toInt8] at hrefuses
  | far make a b c d rest htarget hout =>
      have hdelta : (littleEndian32 a b c d).toInt32.toUInt32.toNat = littleEndian [a, b, c, d] := by
        rw [UInt32.toUInt32_toInt32, toNat_littleEndian32]
      exact .farBranch (Shape.mem_far.1 hopcode) hdelta (by omega) hout

/-- An encoding starts with the bytes, for an instruction at the position. -/
def Starts (offset : Nat) (bytes : List UInt8) : Prop :=
  ∃ piece op rest, bytes = piece ++ rest ∧ Encodes offset piece op

theorem starts_or_refuses_oneByte (offset : Nat) (hlead : opcode ≠ Shape.lead) (bytes : List UInt8) :
    Starts offset (opcode :: bytes) ∨ ∃ e, Refuses offset (opcode :: bytes) e := by
  cases hlookup : Shape.oneByte.lookup opcode with
  | none =>
      refine Or.inr ⟨_, .unknown fun start operand op hencodes => ?_⟩
      rcases hencodes.formed with ⟨_, _, _, heq, hopcode, -⟩ | ⟨_, _, _, heq, -, -⟩
      · obtain ⟨rfl, -⟩ := List.cons.inj heq
        rw [Shape.lookup_oneByte.2 hopcode] at hlookup
        cases hlookup
      · exact hlead (List.cons.inj heq).1
  | some shape =>
      have hopcode := Shape.lookup_oneByte.1 hlookup
      rcases Shape.operand_cases (offset + 1) shape bytes with ⟨operand, rest, op, rfl, hspells⟩ |
        ⟨target, hstrays⟩ | hshort
      · exact Or.inl ⟨_, op, rest, rfl, encodes_oneByte hopcode hspells⟩
      · exact Or.inr ⟨_, strays_oneByte hopcode hstrays⟩
      · exact Or.inr ⟨_, truncated_oneByte hopcode hshort⟩

theorem starts_or_refuses_extended (offset : Nat) (opcode : UInt8) (bytes : List UInt8) :
    Starts offset (Shape.lead :: opcode :: bytes) ∨ ∃ e, Refuses offset (Shape.lead :: opcode :: bytes) e := by
  cases hlookup : Shape.extended.lookup opcode with
  | none =>
      refine Or.inr ⟨_, .unknownExtended fun start operand op hencodes => ?_⟩
      rcases hencodes.formed with ⟨_, _, _, heq, hopcode, -⟩ | ⟨_, _, _, heq, hopcode, -⟩
      · obtain ⟨rfl, -⟩ := List.cons.inj heq
        exact lead_not_mem hopcode
      · obtain ⟨-, htail⟩ := List.cons.inj heq
        obtain ⟨rfl, -⟩ := List.cons.inj htail
        rw [Shape.lookup_extended.2 hopcode] at hlookup
        cases hlookup
  | some shape =>
      have hopcode := Shape.lookup_extended.1 hlookup
      rcases Shape.operand_cases (offset + 2) shape bytes with ⟨operand, rest, op, rfl, hspells⟩ |
        ⟨target, hstrays⟩ | hshort
      · exact Or.inl ⟨_, op, rest, rfl, encodes_extended hopcode hspells⟩
      · rcases Shape.mem_extended.1 hopcode with ⟨_, -, rfl⟩ | ⟨_, -, rfl⟩ <;> cases hstrays
      · exact Or.inr ⟨_, truncated_extended hopcode hshort⟩

/-- **At a position of a body** the body ends, or an encoding starts, or there is a reason why none does. -/
theorem starts_or_refuses (offset : Nat) (bytes : List UInt8) :
    bytes = [] ∨ Starts offset bytes ∨ ∃ e, Refuses offset bytes e := by
  match bytes with
  | [] => exact Or.inl rfl
  | first :: rest =>
      by_cases hlead : first = Shape.lead
      · subst hlead
        match rest with
        | [] =>
            have hceq : Encodes 0 ([Shape.lead] ++ [0x01]) .ceq := .comparison (by decide)
            exact Or.inr (Or.inr ⟨_, .truncated (List.cons_ne_nil _ _) (List.cons_ne_nil _ _) hceq⟩)
        | opcode :: rest => exact Or.inr (starts_or_refuses_extended offset opcode rest)
      · exact Or.inr (starts_or_refuses_oneByte offset hlead rest)

theorem Refuses.not_starts {e : Error} (h : Refuses offset bytes e) : ¬Starts offset bytes := by
  rintro ⟨piece, op, rest, rfl, hencodes⟩
  have hnext := h.next
  rw [hencodes.readsAs rest] at hnext
  cases hnext

/-- Of the encodings of instructions at a position, one at most starts with given bytes. -/
theorem Encodes.unique {bytes' rest rest' : List UInt8} {op' : Operation} (h : Encodes offset bytes op)
    (h' : Encodes offset bytes' op') (heq : bytes ++ rest = bytes' ++ rest') : bytes = bytes' ∧ op = op' := by
  have hread := h.readsAs rest
  rw [heq, h'.readsAs rest'] at hread
  simp only [Prod.mk.injEq, Except.ok.injEq, Option.some.injEq, Instruction.mk.injEq, true_and,
    Cursor.mk.injEq] at hread
  exact ⟨List.append_inj_left heq (by omega), hread.1.symm⟩

end ManagedCode
