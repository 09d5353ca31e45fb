import ManagedCode.Heap.Mark

/-! # Collections

A minor collection keeps the young objects that can be reached from the roots or from remembered objects through
young ones, and makes them old. A major collection keeps, of both generations, what can be reached from the roots. -/

namespace ManagedCode.Heap

/-- Empties the slot that a handle denotes and moves it to its next epoch. -/
def release (heap : Heap) (h : Handle) : Heap :=
  match heap.slots[h.index]? with
  | some slot =>
      if slot.epoch = h.epoch then
        { heap with
          slots := heap.slots.modify h.index fun slot => { epoch := slot.epoch + 1, object := none }
          free := h.index :: heap.free
          stats := { heap.stats with reclaimed := heap.stats.reclaimed + 1 } }
      else heap
  | none => heap

def isMarked (heap : Heap) (h : Handle) : Bool :=
  (heap.get? h).any Object.marked

/-- Makes a young object old. -/
def promote (heap : Heap) (h : Handle) : Heap :=
  let heap := heap.modify h fun o => { o with marked := false, generation := .old }
  { heap with
    old := h :: heap.old
    stats := { heap.stats with promoted := heap.stats.promoted + 1 } }

/-- What a minor collection does with a young object. -/
def settle (heap : Heap) (h : Handle) : Heap :=
  if heap.isMarked h then heap.promote h else heap.release h

/-- The objects that the remembered objects refer to. -/
def rememberedChildren (order : Traversal) (heap : Heap) : List Handle :=
  (order.handles heap.remembered).flatMap fun h => ((heap.get? h).map (Object.children order h)).getD []

/-- A minor collection that visits objects in the given order. -/
def collectMinorBy (order : Traversal) (heap : Heap) (roots : List Value) : Heap :=
  let work := roots.filterMap Value.heapRef? ++ heap.rememberedChildren order
  let heap := heap.mark order true work
  let young := heap.young
  let heap := (order.handles young).foldl settle { heap with young := [] }
  { heap with
    remembered := []
    stats := { heap.stats with minorCollections := heap.stats.minorCollections + 1 } }

/-- Clears the mark of an object or releases it; answers with the survivors added to `kept`. -/
def sweepOne (state : Heap × List Handle) (h : Handle) : Heap × List Handle :=
  let (heap, kept) := state
  if heap.isMarked h then (heap.modify h fun o => { o with marked := false }, kept ++ [h])
  else (heap.release h, kept)

def sweep (heap : Heap) (handles : List Handle) : Heap × List Handle :=
  handles.foldl sweepOne (heap, [])

/-- A major collection that visits objects in the given order. -/
def collectMajorBy (order : Traversal) (heap : Heap) (roots : List Value) : Heap :=
  let heap := heap.mark order false (roots.filterMap Value.heapRef?)
  let (heap, young) := heap.sweep (order.handles heap.young)
  let (heap, old) := heap.sweep (order.handles heap.old)
  { heap with
    young
    old
    remembered := heap.remembered.filter old.contains
    stats := { heap.stats with majorCollections := heap.stats.majorCollections + 1 } }

/-- Collects the young generation; the survivors become old. -/
def collectMinor (heap : Heap) (roots : List Value) : Heap :=
  heap.collectMinorBy .stored roots

/-- Collects both generations; the survivors stay where they are. -/
def collectMajor (heap : Heap) (roots : List Value) : Heap :=
  heap.collectMajorBy .stored roots

end ManagedCode.Heap
