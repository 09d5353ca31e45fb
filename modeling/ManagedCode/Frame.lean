import ManagedCode.Instruction.Basic
import ManagedCode.Region
import ManagedCode.Value
import ManagedCode.Error

/-! # Frames

The state of one call: its instructions, arguments, locals and operand stack, and the index of the instruction it
is at. An operation on the stack or a slot says in its error where in the body it failed. -/

namespace ManagedCode

/-- The state of a call. The top of the operand stack comes first. -/
structure Frame where
  method : Token
  code : Array Instruction
  regions : List Region
  args : List Value
  locals : List Value
  stack : List Value := []
  ip : Nat := 0
  deriving DecidableEq, Repr

namespace Frame

/-- The frame of a call that has not started; its locals are null. -/
def start (method : Token) (code : List Instruction) (regions : List Region) (args : List Value)
    (localCount : Nat) : Frame :=
  { method, code := code.toArray, regions, args, locals := List.replicate localCount .null }

variable (f : Frame)

/-- The position of the instruction the frame is at, and zero past the last. -/
def currentOffset : Nat :=
  (f.code[f.ip]?.map Instruction.offset).getD 0

/-- The index of the instruction at a position, of the last one if there are several. -/
def indexAt? (target : Nat) : Option Nat :=
  (List.range f.code.size).reverse.find? fun index => f.code[index]?.any fun i => i.offset == target

/-- The index of the instruction at a branch target. -/
def indexOf (target : Nat) : Except Error Nat :=
  match f.indexAt? target with
  | some index => .ok index
  | none => .error (.invalidBranchTarget f.currentOffset target)

def next : Frame := { f with ip := f.ip + 1 }

def jumpTo (target : Nat) : Except Error Frame := do
  let index ← f.indexOf target
  return { f with ip := index }

def push (value : Value) : Frame := { f with stack := value :: f.stack }

def pop : Except Error (Value × Frame) :=
  match f.stack with
  | value :: stack => .ok (value, { f with stack })
  | [] => .error (.malformedBody (.underflow f.currentOffset))

def peek : Except Error Value :=
  match f.stack with
  | value :: _ => .ok value
  | [] => .error (.malformedBody (.underflow f.currentOffset))

/-- Takes values off the stack, the one pushed first in front. -/
def popArgs (count : Nat) : Except Error (List Value × Frame) :=
  if f.stack.length < count then
    .error (.malformedBody (.tooFewOperands f.currentOffset count f.stack.length))
  else .ok ((f.stack.take count).reverse, { f with stack := f.stack.drop count })

def slots : SlotKind → List Value
  | .argument => f.args
  | .localVariable => f.locals

def slotError (kind : SlotKind) (index : Nat) : Error :=
  let count := (f.slots kind).length
  .malformedBody (.described
    s!"{kind.name} index {index} at {Text.offsetText f.currentOffset} is out of range (count {count})")

def getSlot (kind : SlotKind) (index : Nat) : Except Error Value :=
  match (f.slots kind)[index]? with
  | some value => .ok value
  | none => .error (f.slotError kind index)

def setSlot (kind : SlotKind) (index : Nat) (value : Value) : Except Error Frame :=
  if index < (f.slots kind).length then
    match kind with
    | .argument => .ok { f with args := f.args.set index value }
    | .localVariable => .ok { f with locals := f.locals.set index value }
  else .error (f.slotError kind index)

/-- Every value the frame keeps alive: arguments, locals, and the stack from its bottom. -/
def roots : List Value :=
  f.args ++ f.locals ++ f.stack.reverse

end Frame
end ManagedCode
