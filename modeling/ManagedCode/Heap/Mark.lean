import ManagedCode.Heap.Basic

/-! # Marking

Marking follows references from a list of handles and marks what it reaches. With `youngOnly` it neither marks nor
passes old objects. The order in which handles and fields are visited is a parameter, since nothing but the numbers
of the emptied slots depends on it. -/

namespace ManagedCode

/-- An order in which to visit handles, and the field values of the object that each handle denotes: some rearrangement
of them. A collection visits the fields of an object once, so each visit has an order of its own. -/
structure Traversal where
  handles : List Handle → List Handle
  values : Handle → List Value → List Value
  handles_perm : ∀ l, (handles l).Perm l
  values_perm : ∀ h l, (values h l).Perm l

/-- Visits everything in the order in which it is kept. -/
def Traversal.stored : Traversal where
  handles := id
  values _ := id
  handles_perm := .refl
  values_perm _ := .refl

/-- The objects that the fields of the object behind a handle refer to. -/
def Object.children (order : Traversal) (h : Handle) (o : Object) : List Handle :=
  (order.values h (o.fields.map Prod.snd)).filterMap Value.heapRef?

namespace Heap

def Unmarked (slot : Slot) : Bool :=
  slot.object.any fun o => !o.marked

/-- The number of objects that marking has not reached. -/
def unmarked (heap : Heap) : Nat :=
  heap.slots.toList.countP Unmarked

def setMarked (heap : Heap) (h : Handle) : Heap :=
  heap.modify h fun o => { o with marked := true }

theorem countP_modify_lt {α : Type} {p : α → Bool} {f : α → α} {l : List α} {i : Nat} {a : α}
    (hi : l[i]? = some a) (hp : p a = true) (hf : p (f a) = false) : (l.modify i f).countP p < l.countP p := by
  induction l generalizing i with
  | nil => simp at hi
  | cons b l ih =>
      cases i with
      | zero =>
          obtain rfl : b = a := by simpa using hi
          simp [hp, hf]
      | succ i =>
          have := ih (i := i) (by simpa using hi)
          simpa [List.countP_cons] using this

theorem unmarked_setMarked_lt {heap : Heap} {h : Handle} {o : Object} (hget : heap.get? h = some o)
    (ho : o.marked = false) : (heap.setMarked h).unmarked < heap.unmarked := by
  unfold get? at hget
  split at hget
  · next slot hslot =>
    split at hget
    · next hepoch =>
      simp only [setMarked, modify, unmarked, Array.toList_modify]
      exact countP_modify_lt (by rw [Array.getElem?_toList]; exact hslot) (by simp [Unmarked, hget, ho])
        (by simp [Unmarked, hget, hepoch])
    · simp at hget
  · simp at hget

/-- Marks what can be reached from the handles in `work`. -/
def mark (order : Traversal) (youngOnly : Bool) (heap : Heap) (work : List Handle) : Heap :=
  match work with
  | [] => heap
  | h :: work =>
      match hget : heap.get? h with
      | none => mark order youngOnly heap work
      | some o =>
          if ho : o.marked = false ∧ (youngOnly = false ∨ o.generation = .young) then
            have := unmarked_setMarked_lt hget ho.1
            mark order youngOnly (heap.setMarked h) (o.children order h ++ work)
          else mark order youngOnly heap work
termination_by (heap.unmarked, work.length)

end Heap
end ManagedCode
