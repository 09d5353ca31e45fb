import ManagedCode.Instruction.Basic
import ManagedCode.Region
import ManagedCode.Error

/-! # Verification of bodies

A verified body jumps only to instruction boundaries, its regions start at such, and its slot numbers are in
range. The error found is the first in the order of the instructions, then of the regions. -/

namespace ManagedCode

/-- The two starts of a region that have to be instruction boundaries. -/
inductive RegionPart where
  | protectedRange
  | handler
  deriving DecidableEq, Repr

def RegionPart.name : RegionPart → String
  | .protectedRange => "try"
  | .handler => "handler"

inductive VerifyError where
  | branchTarget (offset target : Nat)
  | regionStart (region : Nat) (part : RegionPart) (offset : Nat)
  | slot (kind : SlotKind) (index offset count : Nat)
  deriving DecidableEq, Repr

namespace VerifyError

def message : VerifyError → String
  | .branchTarget offset target =>
      s!"invalid branch target at {Text.offsetText offset}: {Text.offsetText target} is not an instruction boundary"
  | .regionStart region part offset =>
      s!"exception region {region} {part.name} offset {Text.offsetText offset} is not an instruction boundary"
  | .slot .argument index offset count =>
      s!"argument index {index} at {Text.offsetText offset} is out of range (count {count})"
  | .slot .localVariable index offset count =>
      s!"local index {index} at {Text.offsetText offset} is out of range (count {count})"

/-- The error that a run with verification ends in: that of the run for a bad target, else the text of the verifier. -/
def toError : VerifyError → Error
  | .branchTarget offset target => .invalidBranchTarget offset target
  | flaw => .malformedBody (.described flaw.message)

end VerifyError

/-- The slot an operation uses, with its kind. -/
def Operation.slot? : Operation → Option (SlotKind × Nat)
  | .ldarg slot | .starg slot => some (.argument, slot.toNat)
  | .ldloc slot | .stloc slot => some (.localVariable, slot.toNat)
  | _ => none

/-- What a body is verified against: the numbers of its slots. -/
structure Verifier where
  argCount : Nat
  localCount : Nat
  deriving DecidableEq, Repr

namespace Verifier

def slotCount (v : Verifier) : SlotKind → Nat
  | .argument => v.argCount
  | .localVariable => v.localCount

def isBoundary (code : List Instruction) (offset : Nat) : Bool :=
  code.any fun i => i.offset == offset

def badTarget? (code : List Instruction) (i : Instruction) : Option VerifyError :=
  match i.op.target? with
  | some target => if isBoundary code target then none else some (.branchTarget i.offset target)
  | none => none

def badSlot? (v : Verifier) (i : Instruction) : Option VerifyError :=
  match i.op.slot? with
  | some (kind, index) =>
      if index < v.slotCount kind then none else some (.slot kind index i.offset (v.slotCount kind))
  | none => none

def badRegion? (code : List Instruction) (index : Nat) (r : Region) : Option VerifyError :=
  if !isBoundary code r.tryOffset.toNat then some (.regionStart index .protectedRange r.tryOffset.toNat)
  else if !isBoundary code r.handlerOffset.toNat then some (.regionStart index .handler r.handlerOffset.toNat)
  else none

/-- The first flaw of a body. -/
def flaw? (v : Verifier) (code : List Instruction) (regions : List Region) : Option VerifyError :=
  (code.findSome? fun i => (badTarget? code i).or (v.badSlot? i)).or
    (regions.zipIdx.findSome? fun (r, index) => badRegion? code index r)

def verify (v : Verifier) (code : List Instruction) (regions : List Region) : Except VerifyError Unit :=
  match v.flaw? code regions with
  | some e => .error e
  | none => .ok ()

end Verifier
end ManagedCode
