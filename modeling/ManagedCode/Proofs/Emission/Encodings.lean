import ManagedCode.Instruction.Emitter
import ManagedCode.Proofs.Decoding.Opcodes

/-! Every encoding that an emitter writes is read back as the operation that was asked for. The bytes of an instruction
are followed by any others: the cursor reads the operation off them and stands behind them. -/

namespace ManagedCode

/-! ### What an opcode stands for -/

theorem lookup_of_plainOperation? {opcode : UInt8} {op : Operation} (h : plainOperation? opcode = some op) :
    Shape.oneByte.lookup opcode = some (.plain op) :=
  Shape.lookup_oneByte.2 (Shape.mem_plain.2 (mem_of_lookup_eq_some h))

theorem lookup_of_comparisons {opcode : UInt8} {op : Operation} (h : comparisons.lookup opcode = some op) :
    Shape.extended.lookup opcode = some (.plain op) :=
  Shape.lookup_extended.2 (Shape.mem_extended.2 (Or.inl ⟨op, mem_of_lookup_eq_some h, rfl⟩))

theorem lookup_of_tokenOperations {opcode : UInt8} {make : Token → Operation}
    (h : tokenOperations.lookup opcode = some make) : Shape.oneByte.lookup opcode = some (Shape.token make) :=
  Shape.lookup_oneByte.2 (Shape.mem_word.2 (Or.inr ⟨make, mem_of_lookup_eq_some h, rfl⟩))

/-- Near branches are the short ones. -/
theorem isShortBranch_of_branch : (∀ entry ∈ nearBranches, isShortBranch entry.1 = true) ∧
    ∀ entry ∈ farBranches, isShortBranch entry.1 = false := by
  decide

theorem lookup_of_branchOperation? {opcode : UInt8} {make : Nat → Operation} (h : branchOperation? opcode = some make) :
    Shape.oneByte.lookup opcode = some (if isShortBranch opcode then .near make else .far make) := by
  rw [Shape.lookup_oneByte]
  rcases List.mem_append.1 (mem_of_lookup_eq_some h) with hnear | hfar
  · rw [if_pos (isShortBranch_of_branch.1 _ hnear)]
    exact Shape.mem_near.2 hnear
  · rw [isShortBranch_of_branch.2 _ hfar]
    exact Shape.mem_far.2 hfar

/-! ### Instructions at a position -/

/-- The bytes at the position are one instruction: the cursor reads the operation and goes on behind them. -/
def ReadsAs (offset : Nat) (bytes : List UInt8) (op : Operation) : Prop :=
  ∀ rest, Cursor.next ⟨offset, bytes ++ rest⟩ =
    (.ok (some ⟨positionWord offset, op⟩), ⟨offset + bytes.length, rest⟩)

/-- The operand at the position is read as the operation says. -/
def OperandAs (offset start : Nat) (shape : Shape) (bytes : List UInt8) (op : Operation) : Prop :=
  ∀ rest, Cursor.operand ⟨offset, bytes ++ rest⟩ start shape = (.ok op, ⟨offset + bytes.length, rest⟩)

section Reading

variable {offset start : Nat} {opcode : UInt8} {shape : Shape} {bytes : List UInt8} {op : Operation}

theorem OperandAs.oneByte (hshape : Shape.oneByte.lookup opcode = some shape)
    (h : OperandAs (offset + 1) (positionWord offset) shape bytes op) : ReadsAs offset (opcode :: bytes) op := by
  intro rest
  have hlead : opcode ≠ Shape.lead := by
    rintro rfl
    have hnone : (Shape.oneByte.lookup Shape.lead).isSome = false := by decide
    rw [hshape] at hnone
    cases hnone
  have hsize : offset + 1 + bytes.length = offset + (opcode :: bytes).length := by
    rw [List.length_cons]
    omega
  simp only [Cursor.next, List.cons_append, if_neg hlead, hshape, Cursor.complete, h rest, hsize]

theorem OperandAs.extended (hshape : Shape.extended.lookup opcode = some shape)
    (h : OperandAs (offset + 2) (positionWord offset) shape bytes op) :
    ReadsAs offset (Shape.lead :: opcode :: bytes) op := by
  intro rest
  have hsize : offset + 2 + bytes.length = offset + (Shape.lead :: opcode :: bytes).length := by
    rw [List.length_cons, List.length_cons]
    omega
  simp only [Cursor.next, List.cons_append, if_true, hshape, Cursor.complete, h rest, hsize]

theorem operandAs_plain (op : Operation) : OperandAs offset start (.plain op) [] op :=
  fun _ => rfl

theorem operandAs_byte (make : UInt8 → Operation) (byte : UInt8) :
    OperandAs offset start (.byte make) [byte] (make byte) :=
  fun _ => rfl

theorem littleEndian16_bytes (w : UInt16) :
    littleEndian16 w.toUInt8 (UInt8.ofNat (w.toNat / 0x100)) = w := by
  apply UInt16.toNat_inj.1
  have hw := w.toNat_lt
  simp only [littleEndian16, UInt16.toNat_ofNat', UInt8.toNat_ofNat', UInt16.toNat_toUInt8]
  omega

theorem operandAs_short (make : UInt16 → Operation) (w : UInt16) :
    OperandAs offset start (.short make) [w.toUInt8, UInt8.ofNat (w.toNat / 0x100)] (make w) := by
  intro rest
  simp only [Cursor.operand, List.cons_append, List.nil_append, littleEndian16_bytes]
  rfl

theorem littleEndian32_bytes (w : UInt32) :
    littleEndian32 (UInt8.ofNat w.toNat) (UInt8.ofNat (w.toNat / 0x100)) (UInt8.ofNat (w.toNat / 0x10000))
      (UInt8.ofNat (w.toNat / 0x1000000)) = w := by
  apply UInt32.toNat_inj.1
  have hw := w.toNat_lt
  simp only [littleEndian32, UInt32.toNat_ofNat', UInt8.toNat_ofNat']
  omega

theorem operandAs_word (make : UInt32 → Operation) (w : UInt32) :
    OperandAs offset start (.word make) (littleEndianBytes w) (make w) := by
  intro rest
  simp only [Cursor.operand, littleEndianBytes, List.cons_append, List.nil_append, littleEndian32_bytes]
  rfl

/-- A distance leads back to the position it was taken to. -/
theorem branchTo_distance {next target : Nat} (htarget : target < positionLimit) (make : Nat → Operation) :
    Cursor.branchTo start next ((target : Int) - next) make = .ok (make target) := by
  have hsum : (next : Int) + ((target : Int) - next) = target := by omega
  have hrange : (0 : Int) ≤ target ∧ (target : Int) < positionLimit := by omega
  simp only [Cursor.branchTo, hsum, if_pos hrange, Int.toNat_natCast]

theorem toInt8_lowByte (x : Int32) : x.toUInt32.toUInt8.toInt8 = x.toInt8 := by
  apply Int8.toBitVec_inj.1
  rw [Int32.toBitVec_toInt8, BitVec.signExtend_eq_setWidth_of_le _ (by decide)]
  rfl

theorem operandAs_near (make : Nat → Operation) {next target : Nat} (hnext : offset + 1 = next)
    (htarget : target < positionLimit) (hlow : -128 ≤ (target : Int) - next) (hhigh : (target : Int) - next ≤ 127) :
    OperandAs offset start (.near make) [(Int32.ofInt ((target : Int) - next)).toUInt32.toUInt8] (make target) := by
  intro rest
  have hdistance : (Int32.ofInt ((target : Int) - next)).toUInt32.toUInt8.toInt8.toInt = (target : Int) - next := by
    rw [toInt8_lowByte, Int32.toInt8_ofInt]
    exact Int8.toInt_ofInt_of_le (by omega) (by omega)
  simp only [Cursor.operand, List.cons_append, List.nil_append, hdistance, hnext, branchTo_distance htarget]
  rw [← hnext]
  rfl

theorem operandAs_far (make : Nat → Operation) {next target : Nat} (hnext : offset + 4 = next)
    (htarget : target < 0x80000000) (hsize : next < 0x80000000) :
    OperandAs offset start (.far make) (littleEndianBytes (Int32.ofInt ((target : Int) - next)).toUInt32)
      (make target) := by
  intro rest
  have hdistance : (Int32.ofInt ((target : Int) - next)).toUInt32.toInt32.toInt = (target : Int) - next := by
    rw [Int32.toInt32_toUInt32]
    exact Int32.toInt_ofInt_of_le (by omega) (by omega)
  have hwide : target < positionLimit := Nat.lt_trans htarget (by decide)
  simp only [Cursor.operand, littleEndianBytes, List.cons_append, List.nil_append, littleEndian32_bytes, hdistance,
    hnext, branchTo_distance hwide]
  rw [← hnext]
  rfl

end Reading

/-! ### Reading on -/

theorem Cursor.readAll_nil (offset : Nat) : Cursor.readAll ⟨offset, []⟩ = .ok [] := by
  rw [readAll]
  rfl

theorem Cursor.readAll_of_next {c c' : Cursor} {i : Instruction} (h : c.next = (.ok (some i), c')) :
    c.readAll = c'.readAll.map (i :: ·) := by
  rw [readAll]
  split
  · next heq =>
    rw [h] at heq
    cases heq
  · next heq =>
    rw [h] at heq
    cases heq
  · next heq =>
    rw [h] at heq
    cases heq
    rfl

theorem Cursor.readAll_of_error {c : Cursor} {e : Error} (h : c.next.1 = .error e) : c.readAll = .error e := by
  rw [readAll]
  split
  · next heq =>
    rw [heq] at h
    exact congrArg Except.error (Except.error.inj h)
  · next heq =>
    rw [heq] at h
    cases h
  · next heq =>
    rw [heq] at h
    cases h

theorem ReadsAs.readAll {offset next : Nat} {bytes rest : List UInt8} {op : Operation} {code : List Instruction}
    (h : ReadsAs offset bytes op) (hnext : offset + bytes.length = next)
    (hrest : Cursor.readAll ⟨next, rest⟩ = .ok code) :
    Cursor.readAll ⟨offset, bytes ++ rest⟩ = .ok (⟨positionWord offset, op⟩ :: code) := by
  rw [Cursor.readAll_of_next (h rest), hnext, hrest]
  rfl

/-! ### Emitted instructions -/

namespace Emitter

/-- The function adds one instruction with the operation. -/
def Emits (f : Emitter → Emitter) (op : Operation) : Prop :=
  ∃ bytes, (∀ e, f e = e.emit bytes) ∧ ∀ offset, ReadsAs offset bytes op

variable {opcode : UInt8} {op : Operation}

theorem emits_op (h : plainOperation? opcode = some op) : Emits (fun e => e.op opcode) op :=
  ⟨[opcode], fun _ => rfl, fun _ => (operandAs_plain op).oneByte (lookup_of_plainOperation? h)⟩

theorem emits_opExtended (h : comparisons.lookup opcode = some op) : Emits (fun e => e.opExtended opcode) op :=
  ⟨[Shape.lead, opcode], fun _ => rfl, fun _ => (operandAs_plain op).extended (lookup_of_comparisons h)⟩

theorem emits_withToken {make : Token → Operation} (h : tokenOperations.lookup opcode = some make) (token : Token) :
    Emits (fun e => e.withToken opcode token) (make token) :=
  ⟨opcode :: littleEndianBytes token.value, fun _ => rfl,
    fun _ => (operandAs_word _ token.value).oneByte (lookup_of_tokenOperations h)⟩

/-- The constants that the opcode holds. -/
theorem plainOperation?_ldc : ∀ k : Fin 10, plainOperation? (UInt8.ofNat (0x16 + ((k.val : Int) - 1)).toNat) =
    some (.ldc (Int32.ofInt ((k.val : Int) - 1))) := by
  decide

theorem emits_ldc (value : Int32) : Emits (fun e => e.ldc value) (.ldc value) := by
  by_cases htiny : -1 ≤ value.toInt ∧ value.toInt ≤ 8
  · refine ⟨[UInt8.ofNat (0x16 + value.toInt).toNat], fun e => if_pos htiny, fun offset => ?_⟩
    obtain ⟨k, hk⟩ : ∃ k : Fin 10, value.toInt = (k.val : Int) - 1 :=
      ⟨⟨(value.toInt + 1).toNat, by omega⟩, by dsimp only; omega⟩
    have hplain := plainOperation?_ldc k
    rw [← hk, Int32.ofInt_toInt] at hplain
    exact (operandAs_plain _).oneByte (lookup_of_plainOperation? hplain)
  · by_cases hsmall : -128 ≤ value.toInt ∧ value.toInt ≤ 127
    · refine ⟨[0x1F, value.toUInt32.toUInt8], fun e => (if_neg htiny).trans (if_pos hsmall), fun offset => ?_⟩
      have hvalue : value.toUInt32.toUInt8.toInt8.toInt32 = value := by
        apply Int32.toInt_inj.1
        rw [toInt8_lowByte, Int8.toInt_toInt32, Int32.toInt_toInt8]
        exact Int.bmod_eq_of_le (by omega) (by omega)
      have hread : ReadsAs offset [0x1F, value.toUInt32.toUInt8] (.ldc value.toUInt32.toUInt8.toInt8.toInt32) :=
        (operandAs_byte (fun b => .ldc b.toInt8.toInt32) _).oneByte rfl
      rwa [hvalue] at hread
    · refine ⟨0x20 :: littleEndianBytes value.toUInt32, fun e => (if_neg htiny).trans (if_neg hsmall), fun offset => ?_⟩
      have hread : ReadsAs offset (0x20 :: littleEndianBytes value.toUInt32) (.ldc value.toUInt32.toInt32) :=
        (operandAs_word (fun w => .ldc w.toInt32) _).oneByte rfl
      rwa [Int32.toInt32_toUInt32] at hread

/-- A slot instruction whose three encodings are opcodes of one operation. -/
theorem emits_slot {opcodes : SlotOpcodes} {make : UInt16 → Operation}
    (hin : ∀ first, opcodes.inOpcode = some first →
      ∀ k : Fin 4, plainOperation? (first + UInt8.ofNat k) = some (make (UInt16.ofNat k)))
    (hshort : Shape.oneByte.lookup opcodes.short = some (Shape.slot make))
    (hlong : Shape.extended.lookup opcodes.long = some (.short make)) (index : UInt16) :
    Emits (fun e => e.slot opcodes index) (make index) := by
  have hwide : Emits (fun e => slot.wide e opcodes index) (make index) := by
    by_cases hbyte : index.toNat ≤ 255
    · refine ⟨[opcodes.short, index.toUInt8], fun e => if_pos hbyte, fun offset => ?_⟩
      have hindex : index.toUInt8.toUInt16 = index := by
        apply UInt16.toNat_inj.1
        rw [UInt8.toNat_toUInt16, UInt16.toNat_toUInt8]
        omega
      have hread : ReadsAs offset [opcodes.short, index.toUInt8] (make index.toUInt8.toUInt16) :=
        (operandAs_byte (fun b => make b.toUInt16) _).oneByte hshort
      rwa [hindex] at hread
    · exact ⟨[0xFE, opcodes.long, index.toUInt8, UInt8.ofNat (index.toNat / 0x100)], fun e => if_neg hbyte,
        fun offset => (operandAs_short make index).extended hlong⟩
  unfold slot
  cases hfirst : opcodes.inOpcode with
  | none => exact hwide
  | some first =>
      dsimp only
      by_cases hsmall : index.toNat ≤ 3
      · refine ⟨[first + index.toUInt8], fun e => if_pos hsmall, fun offset => ?_⟩
        have hplain := hin first hfirst ⟨index.toNat, by omega⟩
        have hbyte : UInt8.ofNat index.toNat = index.toUInt8 := rfl
        rw [hbyte, UInt16.ofNat_toNat] at hplain
        exact (operandAs_plain _).oneByte (lookup_of_plainOperation? hplain)
      · simpa only [if_neg hsmall] using hwide

theorem emits_ldarg (index : UInt16) : Emits (fun e => e.ldarg index) (.ldarg index) :=
  emits_slot (by rintro _ ⟨⟩; decide) rfl rfl index

theorem emits_starg (index : UInt16) : Emits (fun e => e.starg index) (.starg index) :=
  emits_slot (by rintro _ ⟨⟩) rfl rfl index

theorem emits_ldloc (index : UInt16) : Emits (fun e => e.ldloc index) (.ldloc index) :=
  emits_slot (by rintro _ ⟨⟩; decide) rfl rfl index

theorem emits_stloc (index : UInt16) : Emits (fun e => e.stloc index) (.stloc index) :=
  emits_slot (by rintro _ ⟨⟩; decide) rfl rfl index

end Emitter
end ManagedCode
