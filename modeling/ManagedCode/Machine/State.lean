import ManagedCode.Config
import ManagedCode.Console
import ManagedCode.Dispatch
import ManagedCode.Frame
import ManagedCode.Heap.Collect
import ManagedCode.Program

/-! # The machine

A machine holds a heap, the calls in flight, the dispatch memo and the console. Each call is an activation: its frame,
and what becomes of its result. A call made by the host ends the run when it returns; the others hand their result to
the activation below. -/

namespace ManagedCode

/-- What becomes of the result of a call: it goes to the host, onto the caller's stack, or nowhere. -/
inductive ResultUse where
  | host
  | push
  | discard
  deriving DecidableEq, Repr

/-- The use that a call with the given signature makes of its result. -/
def Signature.resultUse (s : Signature) : ResultUse :=
  if s.returnsVoid then .discard else .push

/-- A call in flight. -/
structure Activation where
  frame : Frame
  use : ResultUse
  deriving DecidableEq, Repr

/-- The state of a machine. The innermost call comes first. Caught faults and lists are numbered as they are made, the
next one with `fresh`. -/
structure Machine where
  heap : Heap := {}
  activations : List Activation := []
  dispatch : Dispatch := {}
  console : Console := {}
  fresh : Nat := 0

namespace Machine

variable (m : Machine)

/-- The number of calls in flight. -/
def callDepth : Nat := m.activations.length

/-- Every value that the calls in flight keep alive. -/
def roots : List Value :=
  m.activations.flatMap fun a => a.frame.roots

/-- Collects the young generation with the calls in flight and one more value as roots, in the given order. -/
def collectMinor (order : Traversal) (extra : Option Value) : Machine :=
  let roots := m.roots ++ extra.toList
  match m with
  | { heap, activations, dispatch, console, fresh } =>
      { heap := heap.collectMinorBy order roots, activations, dispatch, console, fresh }

/-- Collects both generations with the calls in flight as roots, in the given order. -/
def collectMajor (order : Traversal := .stored) : Machine :=
  let roots := m.roots
  match m with
  | { heap, activations, dispatch, console, fresh } =>
      { heap := heap.collectMajorBy order roots, activations, dispatch, console, fresh }

/-- The text of a value on the console: an object shows the name of its type. -/
def textOf (value : Value) : String :=
  match value with
  | .object h =>
      match m.heap.get? h with
      | some o => o.typeName
      | none => h.text
  | other => other.text

end Machine

/-- What one step of a machine comes to. -/
inductive Outcome where
  | running (m : Machine)
  | returned (m : Machine) (value : Option Value)
  | failed (m : Machine) (error : Error)

end ManagedCode
