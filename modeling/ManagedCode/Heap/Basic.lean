import ManagedCode.Value
import ManagedCode.Error

/-! # The heap

Objects live in slots and are named by handles. New objects are young; a minor collection makes the survivors old.
An old object that is given a reference to a young one is remembered, so that a minor collection finds the young
object without searching the old ones. Emptied slots are used again, the one emptied last first. -/

namespace ManagedCode

inductive Generation where
  | young
  | old
  deriving DecidableEq, Repr

/-- An object: its type, its fields by key, and whether the collection under way has reached it. -/
structure Object where
  type : Token
  typeName : String
  generation : Generation := .young
  fields : List (String × Value)
  marked : Bool := false
  deriving DecidableEq, Repr

namespace Object

def field? (o : Object) (key : String) : Option Value :=
  o.fields.lookup key

def setField (o : Object) (key : String) (value : Value) : Object :=
  { o with fields := o.fields.map fun (k, v) => if k = key then (k, value) else (k, v) }

end Object

/-- A place for an object. The epoch counts, modulo 2^32, how often it was emptied. -/
structure Slot where
  epoch : UInt32 := 0
  object : Option Object
  deriving DecidableEq, Repr

/-- Counters of what the heap has done. -/
structure HeapStats where
  allocated : Nat := 0
  minorCollections : Nat := 0
  majorCollections : Nat := 0
  promoted : Nat := 0
  reclaimed : Nat := 0
  deriving DecidableEq, Repr

/-- Slots, the indices of the empty ones with the last emptied first, the handles of each generation, and the old
objects that may refer to young ones. -/
structure Heap where
  slots : Array Slot := #[]
  free : List Nat := []
  young : List Handle := []
  old : List Handle := []
  remembered : List Handle := []
  stats : HeapStats := {}
  deriving DecidableEq, Repr

namespace Heap

def empty : Heap := {}

/-- A young object whose fields are null. -/
def blankObject (type : Token) (typeName : String) (keys : List String) : Object :=
  { type, typeName, fields := keys.eraseDups.map fun key => (key, .null) }

/-- Puts a new object into the slot emptied last, or into a new one. -/
def allocate (heap : Heap) (type : Token) (typeName : String) (keys : List String) : Heap × Handle :=
  let object := blankObject type typeName keys
  match heap with
  | { slots, free, young, old, remembered, stats } =>
      let stats := { stats with allocated := stats.allocated + 1 }
      match free with
      | index :: free =>
          let handle : Handle := ⟨index, (slots[index]?.map Slot.epoch).getD 0⟩
          ({ slots := slots.modify index fun slot => { slot with object := some object }, free,
             young := handle :: young, old, remembered, stats }, handle)
      | [] =>
          let handle : Handle := ⟨slots.size, 0⟩
          ({ slots := slots.push { object := some object }, free := [],
             young := handle :: young, old, remembered, stats }, handle)

/-- The object a handle denotes, if it is still there. -/
def get? (heap : Heap) (h : Handle) : Option Object :=
  match heap.slots[h.index]? with
  | some slot => if slot.epoch = h.epoch then slot.object else none
  | none => none

def contains (heap : Heap) (h : Handle) : Bool :=
  (heap.get? h).isSome

def object (heap : Heap) (h : Handle) : Except Error Object :=
  match heap.get? h with
  | some o => .ok o
  | none => .error (.danglingReference h)

def generation? (heap : Heap) (h : Handle) : Option Generation :=
  (heap.get? h).map Object.generation

/-- Changes the object a handle denotes. -/
def modify (heap : Heap) (h : Handle) (f : Object → Object) : Heap :=
  { heap with
    slots := heap.slots.modify h.index fun slot =>
      if slot.epoch = h.epoch then { slot with object := slot.object.map f } else slot }

def readField (heap : Heap) (h : Handle) (key : String) : Except Error Value := do
  let o ← heap.object h
  match o.field? key with
  | some value => .ok value
  | none => .error (.fieldNotPresent key o.typeName)

/-- Remembers an old `owner` that refers to a young `target`. -/
def writeBarrier (heap : Heap) (owner target : Handle) : Heap :=
  if heap.generation? owner = some .old ∧ heap.generation? target = some .young then
    { heap with remembered := heap.remembered.insert owner }
  else heap

def writeField (heap : Heap) (h : Handle) (key : String) (value : Value) : Except Error Heap := do
  let o ← heap.object h
  match o.field? key with
  | none => .error (.fieldNotPresent key o.typeName)
  | some _ =>
      let heap := heap.modify h fun o => o.setField key value
      match value.heapRef? with
      | some target => .ok (heap.writeBarrier h target)
      | none => .ok heap

def isRemembered (heap : Heap) (h : Handle) : Bool :=
  heap.remembered.contains h

/-- The number of live objects. -/
def objectCount (heap : Heap) : Nat :=
  heap.young.length + heap.old.length

end Heap
end ManagedCode
