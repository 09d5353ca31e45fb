import ManagedCode.Machine.State

/-! # Unwinding

A failed instruction looks for a handler in the call it belongs to, then in the callers. In each call the catching
regions around the current instruction are tried from the narrowest to the widest, and the first that takes the fault
decides. A type that cannot be resolved, or a handler that is no instruction, puts another error in place of the
fault. Errors that are not catchable pass every call. -/

namespace ManagedCode

/-- Whether a region takes a fault. -/
def Program.catches (p : Program) (fault : Fault) (r : Region) : Except Error Bool :=
  match r.catchType with
  | none => .ok true
  | some type =>
      match type.index? with
      | none => .ok true
      | some _ => do
          let name ← p.index.typeName p.image type
          return fault.isInstanceOf name

/-- The catching regions around a position, the narrowest first and equals in their order. -/
def Frame.candidates (f : Frame) (offset : Nat) : List Region :=
  (f.regions.filter fun r => r.kind == .catching && r.covers offset).mergeSort
    fun a b => a.tryLength ≤ b.tryLength

/-- The instruction at which the first of the regions that takes the fault handles it. -/
def Frame.handlerAmong (p : Program) (f : Frame) (fault : Fault) : List Region → Except Error (Option Nat)
  | [] => .ok none
  | r :: rest => do
      if ← p.catches fault r then
        let index ← f.indexOf r.handlerOffset.toNat
        return some index
      else f.handlerAmong p fault rest

/-- The value that a handler finds: the thrown object, or the fault under an identity. -/
def Fault.toValue (fault : Fault) (identity : Nat) : Value :=
  match fault.payload with
  | some h => .object h
  | none => .fault identity fault

namespace Machine

/-- The identity a caught error gets: the one it had, or the next. -/
def identityOf (m : Machine) : Error → Nat
  | .thrown _ (some identity) => identity
  | _ => m.fresh

end Machine

/-- What is worked on in place: the frame of a call, and the machine, with the call in it as it was before. -/
structure Workspace where
  frame : Frame
  machine : Machine

/-- A computation that changes the workspace as it goes, and leaves it as it has become when it fails. -/
abbrev InPlace := EStateM Error Workspace

namespace Machine

/-- Looks for a handler of an error that was raised at a position of the frame's body. If there is one, the fault is put
on the stack in place of all else, and the answer is the instruction to go on at. -/
def handleFault (p : Program) (offset : Nat) (error : Error) : InPlace Nat := fun w =>
  match error.toFault? with
  | none => .error error w
  | some fault =>
      match w.frame.handlerAmong p fault (w.frame.candidates offset) with
      | .ok (some index) =>
          let value := fault.toValue (w.machine.identityOf error)
          .ok index {
            frame := { w.frame with stack := [value] }
            machine := { w.machine with fresh := w.machine.fresh + 1 } }
      | .ok none => .error error w
      | .error e => .error e w

/-- Goes on at the handler that takes the error, or fails with what reaches the host. -/
def unwind (p : Program) (m : Machine) (error : Error) : List Activation → Outcome
  | [] => .failed { m with activations := [] } error
  | a :: below =>
      match handleFault p a.frame.currentOffset error ⟨a.frame, m⟩ with
      | .ok index w =>
          .running { w.machine with activations := { a with frame := { w.frame with ip := index } } :: below }
      | .error e w =>
          if a.use = .host then .failed { w.machine with activations := below } e else unwind p w.machine e below

end Machine
end ManagedCode
