import ManagedCode.Proofs.Decoding.Bodies

/-! Reading on after errors. Every call before the end of a body moves on by one byte at least and by five at most,
whether it reads an instruction or fails: an error leaves an operand that is cut short, but never the opcode. So there
are at most as many calls before the end as there are bytes. Up to the first error the calls read what the decoder of
whole bodies reads. -/

namespace ManagedCode

theorem Encodes.length_le {offset : Nat} {bytes : List UInt8} {op : Operation} (h : Encodes offset bytes op) :
    bytes.length ≤ 5 := by
  cases h <;> simp

/-- What an error leaves of the bytes. The opcode is used up, and with it the distance of a branch to nowhere; an
operand that is cut short is not. -/
inductive Leaves : Error → List UInt8 → List UInt8 → Prop
  | opcode (offset : Nat) (opcode : UInt8) (rest : List UInt8) :
      Leaves (.unsupportedInstruction offset opcode false) (opcode :: rest) rest
  | extendedOpcode (offset : Nat) (opcode : UInt8) (rest : List UInt8) :
      Leaves (.unsupportedInstruction offset opcode true) (0xFE :: opcode :: rest) rest
  | lead (offset : Nat) : Leaves (.malformedBody (.truncated offset)) [0xFE] []
  | operand (offset : Nat) {opcode : UInt8} (hlead : opcode ≠ 0xFE) (operand : List UInt8) :
      Leaves (.malformedBody (.truncated offset)) (opcode :: operand) operand
  | extendedOperand (offset : Nat) (opcode : UInt8) (operand : List UInt8) :
      Leaves (.malformedBody (.truncated offset)) (0xFE :: opcode :: operand) operand
  | nearBranch (offset : Nat) (target : Int) {opcode : UInt8} {make : Nat → Operation}
      (hopcode : (opcode, make) ∈ nearBranches) (delta : UInt8) (rest : List UInt8) :
      Leaves (.malformedBody (.targetOutOfRange offset target)) (opcode :: delta :: rest) rest
  | farBranch (offset : Nat) (target : Int) {opcode : UInt8} {make : Nat → Operation}
      (hopcode : (opcode, make) ∈ farBranches) (a b c d : UInt8) (rest : List UInt8) :
      Leaves (.malformedBody (.targetOutOfRange offset target)) (opcode :: a :: b :: c :: d :: rest) rest

namespace Cursor

/-! ### One call -/

/-- Position and number of bytes left make up the length of the body. -/
def total (c : Cursor) : Nat := c.offset + c.rest.length

variable {offset start : Nat} {opcode : UInt8} {bytes : List UInt8} {shape : Shape} {e : Error}

/-- The cursor after a number of calls, whatever they answer. -/
def after (c : Cursor) : Nat → Cursor
  | 0 => c
  | calls + 1 => (c.after calls).next.2

/-- What a call answers after a number of others. -/
def answer (c : Cursor) (calls : Nat) : Except Error (Option Instruction) :=
  (c.after calls).next.1

theorem after_succ (c : Cursor) (calls : Nat) : c.after (calls + 1) = c.next.2.after calls := by
  induction calls with
  | zero => rfl
  | succ calls ih => exact congrArg (fun c' => c'.next.2) ih

theorem answer_succ (c : Cursor) (calls : Nat) : c.answer (calls + 1) = c.next.2.answer calls :=
  congrArg (fun c' => c'.next.1) (c.after_succ calls)

/-- The call after the given number of others is the first that fails. -/
def FailsAt (c : Cursor) (calls : Nat) (e : Error) : Prop :=
  c.answer calls = .error e ∧ ∀ n < calls, ∃ i, c.answer n = .ok (some i)

theorem FailsAt.unique {c : Cursor} {calls calls' : Nat} {e e' : Error} (h : c.FailsAt calls e)
    (h' : c.FailsAt calls' e') : e = e' := by
  rcases Nat.lt_trichotomy calls calls' with hlt | rfl | hlt
  · obtain ⟨i, hi⟩ := h'.2 calls hlt
    rw [h.1] at hi
    cases hi
  · exact Except.error.inj (h.1.symm.trans h'.1)
  · obtain ⟨i, hi⟩ := h.2 calls' hlt
    rw [h'.1] at hi
    cases hi

section Next

variable {c c' : Cursor} {i : Instruction} (hnext : c.next = (.ok (some i), c'))

include hnext

theorem answer_zero_of_next : c.answer 0 = .ok (some i) :=
  congrArg Prod.fst hnext

theorem answer_succ_of_next (n : Nat) : c.answer (n + 1) = c'.answer n := by
  rw [answer_succ, hnext]

theorem FailsAt.later {calls : Nat} {e : Error} (h : c'.FailsAt calls e) : c.FailsAt (calls + 1) e := by
  refine ⟨(answer_succ_of_next hnext calls).trans h.1, fun n hn => ?_⟩
  cases n with
  | zero => exact ⟨i, answer_zero_of_next hnext⟩
  | succ n =>
      rw [answer_succ_of_next hnext]
      exact h.2 n (Nat.lt_of_succ_lt_succ hn)

end Next

end Cursor

/-! ### The calls on a body -/

namespace Cursor

section Body

variable (code : List UInt8) (n : Nat)

end Body

/-- Two opcodes that there are not, an operand that is cut short and left, a branch to nowhere, and then the end. -/
example : (List.range 7).map (start [0x8D, 0xFE, 0x11, 0x2B, 0x80, 0x20, 0x17]).answer =
    [.error (.unsupportedInstruction 0 0x8D false), .error (.unsupportedInstruction 1 0x11 true),
      .error (.malformedBody (.targetOutOfRange 3 (-123))), .error (.malformedBody (.truncated 5)),
      .ok (some ⟨6, .ldc 1⟩), .ok none, .ok none] := by
  decide_cbv

end Cursor
end ManagedCode
