import ManagedCode.Heap.Collect

/-! Two views of a heap, and what each operation does to them. `get?` shows the object that a handle denotes, `cell?`
the epoch of a slot and whether the slot is taken. Everything proved about heaps is said through these views and the
fields of the record, so the slots themselves are opened in this module only. -/

namespace ManagedCode
namespace Heap

/-- The epoch of a slot and whether there is an object in it. -/
def cell? (heap : Heap) (index : Nat) : Option (UInt32 × Bool) :=
  heap.slots[index]?.map fun slot => (slot.epoch, slot.object.isSome)

/-- The free list names slots that are there and are empty. -/
def FreeSlotsEmpty (heap : Heap) : Prop :=
  ∀ i ∈ heap.free, ∃ epoch, heap.cell? i = some (epoch, false)

theorem get?_eq_some_iff {heap : Heap} {h : Handle} {o : Object} :
    heap.get? h = some o ↔
      ∃ slot, heap.slots[h.index]? = some slot ∧ slot.epoch = h.epoch ∧ slot.object = some o := by
  unfold get?
  cases hslot : heap.slots[h.index]? with
  | none => simp
  | some slot =>
      by_cases hepoch : slot.epoch = h.epoch
      · simp [hepoch]
      · simp [hepoch]

theorem contains_iff {heap : Heap} {h : Handle} : heap.contains h = true ↔ ∃ o, heap.get? h = some o := by
  rw [contains, Option.isSome_iff_exists]

theorem contains_of_get? {heap : Heap} {h : Handle} {o : Object} (hget : heap.get? h = some o) :
    heap.contains h = true :=
  contains_iff.2 ⟨o, hget⟩

theorem contains_iff_cell? {heap : Heap} {h : Handle} :
    heap.contains h = true ↔ heap.cell? h.index = some (h.epoch, true) := by
  rw [contains_iff, cell?]
  constructor
  · rintro ⟨o, hget⟩
    obtain ⟨slot, hslot, hepoch, hobject⟩ := get?_eq_some_iff.1 hget
    simp [hslot, hepoch, hobject]
  · intro hcell
    obtain ⟨slot, hslot, heq⟩ := Option.map_eq_some_iff.1 hcell
    obtain ⟨hepoch, hsome⟩ := Prod.mk.inj heq
    obtain ⟨o, hobject⟩ := Option.isSome_iff_exists.1 hsome
    exact ⟨o, get?_eq_some_iff.2 ⟨slot, hslot, hepoch, hobject⟩⟩

theorem generation?_eq_some_iff {heap : Heap} {h : Handle} {g : Generation} :
    heap.generation? h = some g ↔ ∃ o, heap.get? h = some o ∧ o.generation = g := by
  rw [generation?, Option.map_eq_some_iff]

theorem isMarked_iff {heap : Heap} {h : Handle} :
    heap.isMarked h = true ↔ ∃ o, heap.get? h = some o ∧ o.marked = true := by
  rw [isMarked, Option.any_eq_true_iff_get]
  constructor
  · rintro ⟨hsome, hmarked⟩
    exact ⟨_, Option.some_get hsome |>.symm, hmarked⟩
  · rintro ⟨o, hget, hmarked⟩
    exact ⟨by simp [hget], by simpa [hget] using hmarked⟩

/-- The two views together show the slots. -/
theorem slots_ext {heap heap' : Heap} (hcell : ∀ i, heap.cell? i = heap'.cell? i)
    (hget : ∀ h, heap.get? h = heap'.get? h) : heap.slots = heap'.slots := by
  refine Array.ext_getElem? fun i => ?_
  have hcells := hcell i
  unfold cell? at hcells
  cases hslot : heap.slots[i]? with
  | none =>
      rw [hslot, Option.map_none, eq_comm, Option.map_eq_none_iff] at hcells
      exact hcells.symm
  | some slot =>
      rw [hslot, Option.map_some, eq_comm, Option.map_eq_some_iff] at hcells
      obtain ⟨slot', hslot', heq⟩ := hcells
      obtain ⟨hepoch, -⟩ := Prod.mk.inj heq
      -- The handle to the slot in its present epoch shows the object.
      have hobject := hget ⟨i, slot.epoch⟩
      simp only [get?, hslot, hslot', hepoch, if_true] at hobject
      obtain ⟨epoch, object⟩ := slot
      obtain ⟨epoch', object'⟩ := slot'
      obtain rfl : epoch' = epoch := hepoch
      obtain rfl : object = object' := hobject
      exact hslot'.symm

/-! ### Changing an object -/

section Modify

variable (heap : Heap) (h : Handle) (f : Object → Object)

@[simp] theorem modify_free : (heap.modify h f).free = heap.free := rfl
@[simp] theorem modify_young : (heap.modify h f).young = heap.young := rfl
@[simp] theorem modify_old : (heap.modify h f).old = heap.old := rfl
@[simp] theorem modify_remembered : (heap.modify h f).remembered = heap.remembered := rfl
@[simp] theorem modify_stats : (heap.modify h f).stats = heap.stats := rfl

theorem get?_modify (h' : Handle) :
    (heap.modify h f).get? h' = if h' = h then (heap.get? h').map f else heap.get? h' := by
  unfold get? modify
  rw [Array.getElem?_modify]
  by_cases hindex : h.index = h'.index
  · rw [if_pos hindex]
    cases hslot : heap.slots[h'.index]? with
    | none => simp
    | some slot =>
        by_cases heq : h' = h
        · subst heq
          by_cases hepoch : slot.epoch = h'.epoch <;> simp [hepoch]
        · -- Another handle to the same slot has another epoch, and at most one of the two is the slot's.
          have hepochs : h'.epoch ≠ h.epoch := fun e => heq (by cases h; cases h'; simp_all)
          by_cases hepoch : slot.epoch = h.epoch
          · simp [hepoch, heq, hepochs.symm]
          · simp [hepoch, heq]
  · have heq : h' ≠ h := fun e => hindex (by rw [e])
    rw [if_neg hindex, if_neg heq]

theorem cell?_modify (i : Nat) : (heap.modify h f).cell? i = heap.cell? i := by
  unfold cell? modify
  rw [Array.getElem?_modify]
  by_cases hindex : h.index = i
  · rw [if_pos hindex, Option.map_map]
    congr 1
    funext slot
    by_cases hepoch : slot.epoch = h.epoch <;> simp [hepoch]
  · rw [if_neg hindex]

end Modify

/-! ### Marks -/

/-- The heap with the given marks on its objects. -/
def withMarks (heap : Heap) (marks : Handle → Bool) : Heap :=
  { heap with
    slots := heap.slots.mapIdx fun i slot =>
      { slot with object := slot.object.map fun o => { o with marked := marks ⟨i, slot.epoch⟩ } } }

theorem get?_withMarks (heap : Heap) (marks : Handle → Bool) (h : Handle) :
    (heap.withMarks marks).get? h = (heap.get? h).map fun o => { o with marked := marks h } := by
  unfold get? withMarks
  rw [Array.getElem?_mapIdx]
  cases heap.slots[h.index]? with
  | none => rfl
  | some slot =>
      by_cases hepoch : slot.epoch = h.epoch
      · simp [hepoch]
      · simp [hepoch]

theorem cell?_withMarks (heap : Heap) (marks : Handle → Bool) (i : Nat) :
    (heap.withMarks marks).cell? i = heap.cell? i := by
  unfold cell? withMarks
  rw [Array.getElem?_mapIdx, Option.map_map]
  congr 1
  funext slot
  simp

/-! ### Emptying a slot -/

/-- Emptying a slot changes the slots, the free list and the number of objects reclaimed, and nothing else. -/
theorem release_cases (heap : Heap) (h : Handle) : ∃ slots free reclaimed,
    heap.release h = { heap with slots, free, stats := { heap.stats with reclaimed } } := by
  unfold release
  split
  · split
    · exact ⟨_, _, _, rfl⟩
    · exact ⟨_, _, _, rfl⟩
  · exact ⟨_, _, _, rfl⟩

@[simp] theorem release_young (heap : Heap) (h : Handle) : (heap.release h).young = heap.young := by
  obtain ⟨_, _, _, hrelease⟩ := heap.release_cases h
  rw [hrelease]

@[simp] theorem release_old (heap : Heap) (h : Handle) : (heap.release h).old = heap.old := by
  obtain ⟨_, _, _, hrelease⟩ := heap.release_cases h
  rw [hrelease]

@[simp] theorem release_remembered (heap : Heap) (h : Handle) : (heap.release h).remembered = heap.remembered := by
  obtain ⟨_, _, _, hrelease⟩ := heap.release_cases h
  rw [hrelease]

@[simp] theorem release_allocated (heap : Heap) (h : Handle) :
    (heap.release h).stats.allocated = heap.stats.allocated := by
  obtain ⟨_, _, _, hrelease⟩ := heap.release_cases h
  rw [hrelease]

theorem get?_release (heap : Heap) (h h' : Handle) :
    (heap.release h).get? h' = if h' = h then none else heap.get? h' := by
  cases hslot : heap.slots[h.index]? with
  | none =>
      have hkeep : heap.release h = heap := by simp [release, hslot]
      rw [hkeep]
      by_cases heq : h' = h
      · subst heq
        simp [get?, hslot]
      · rw [if_neg heq]
  | some slot =>
      by_cases hepoch : slot.epoch = h.epoch
      · simp only [release, hslot, hepoch, if_true, get?, Array.getElem?_modify]
        by_cases hindex : h.index = h'.index
        · rw [if_pos hindex, ← hindex, hslot]
          by_cases heq : h' = h
          · simp [heq]
          · have hepochs : slot.epoch ≠ h'.epoch := fun e => heq (by cases h; cases h'; simp_all)
            simp [heq, hepochs]
        · have heq : h' ≠ h := fun e => hindex (by rw [e])
          rw [if_neg hindex, if_neg heq]
      · have hkeep : heap.release h = heap := by simp [release, hslot, hepoch]
        rw [hkeep]
        by_cases heq : h' = h
        · subst heq
          simp [get?, hslot, hepoch]
        · rw [if_neg heq]

section Release

variable {heap : Heap} {h : Handle} (hlive : heap.contains h = true)

include hlive

theorem release_eq : heap.release h =
    { heap with
      slots := heap.slots.modify h.index fun slot => { epoch := slot.epoch + 1, object := none }
      free := h.index :: heap.free
      stats := { heap.stats with reclaimed := heap.stats.reclaimed + 1 } } := by
  obtain ⟨o, hget⟩ := contains_iff.1 hlive
  obtain ⟨slot, hslot, hepoch, -⟩ := get?_eq_some_iff.1 hget
  simp [release, hslot, hepoch]

theorem cell?_release (i : Nat) :
    (heap.release h).cell? i = if i = h.index then some (h.epoch + 1, false) else heap.cell? i := by
  obtain ⟨o, hget⟩ := contains_iff.1 hlive
  obtain ⟨slot, hslot, hepoch, -⟩ := get?_eq_some_iff.1 hget
  rw [release_eq hlive, cell?, cell?, Array.getElem?_modify]
  by_cases hindex : i = h.index
  · subst hindex
    simp [hslot, hepoch]
  · rw [if_neg hindex, if_neg (Ne.symm hindex)]

end Release

/-! ### New objects -/

section Allocate

variable (heap : Heap) (type : Token) (typeName : String) (keys : List String)

theorem allocate_young : (heap.allocate type typeName keys).1.young =
    (heap.allocate type typeName keys).2 :: heap.young := by
  unfold allocate
  split
  split <;> rfl

theorem allocate_old : (heap.allocate type typeName keys).1.old = heap.old := by
  unfold allocate
  split
  split <;> rfl

theorem allocate_remembered : (heap.allocate type typeName keys).1.remembered = heap.remembered := by
  unfold allocate
  split
  split <;> rfl

theorem allocate_stats : (heap.allocate type typeName keys).1.stats =
    { heap.stats with allocated := heap.stats.allocated + 1 } := by
  unfold allocate
  split
  split <;> rfl

theorem allocate_free : (heap.allocate type typeName keys).1.free = heap.free.tail := by
  unfold allocate
  split
  split <;> rfl

/-- The slot of a new object was empty and in the handle's epoch, or there was no such slot and the epoch is zero. -/
theorem cell?_allocated (hfree : heap.FreeSlotsEmpty) :
    heap.cell? (heap.allocate type typeName keys).2.index =
        some ((heap.allocate type typeName keys).2.epoch, false) ∨
      heap.cell? (heap.allocate type typeName keys).2.index = none ∧
        (heap.allocate type typeName keys).2.epoch = 0 := by
  obtain ⟨slots, free, young, old, remembered, stats⟩ := heap
  cases free with
  | nil =>
      right
      simp [allocate, cell?]
  | cons i free =>
      left
      obtain ⟨epoch, hcell⟩ := hfree i List.mem_cons_self
      obtain ⟨slot, hslot, heq⟩ := Option.map_eq_some_iff.1 hcell
      change slots[i]? = some slot at hslot
      obtain ⟨-, hobject⟩ := Prod.mk.inj heq
      simp [allocate, cell?, hslot, hobject]

theorem not_contains_allocated (hfree : heap.FreeSlotsEmpty) :
    heap.contains (heap.allocate type typeName keys).2 = false := by
  rw [Bool.eq_false_iff, Ne, contains_iff_cell?]
  intro hcell
  rcases heap.cell?_allocated type typeName keys hfree with h | ⟨h, -⟩ <;> simp [h] at hcell

theorem cell?_allocate (hfree : heap.FreeSlotsEmpty) (i : Nat) :
    (heap.allocate type typeName keys).1.cell? i =
      if i = (heap.allocate type typeName keys).2.index then
        some ((heap.allocate type typeName keys).2.epoch, true)
      else heap.cell? i := by
  obtain ⟨slots, free, young, old, remembered, stats⟩ := heap
  cases free with
  | nil =>
      simp only [allocate, cell?, Array.getElem?_push]
      by_cases hi : i = slots.size <;> simp [hi]
  | cons j free =>
      obtain ⟨epoch, hcell⟩ := hfree j List.mem_cons_self
      obtain ⟨slot, hslot, -⟩ := Option.map_eq_some_iff.1 hcell
      change slots[j]? = some slot at hslot
      simp only [allocate, cell?, Array.getElem?_modify]
      by_cases hi : i = j
      · subst hi
        simp [hslot]
      · simp [hi, Ne.symm hi]

theorem get?_allocate (hfree : heap.FreeSlotsEmpty) (h : Handle) :
    (heap.allocate type typeName keys).1.get? h =
      if h = (heap.allocate type typeName keys).2 then some (blankObject type typeName keys)
      else heap.get? h := by
  obtain ⟨slots, free, young, old, remembered, stats⟩ := heap
  cases free with
  | nil =>
      simp only [allocate, get?, Array.getElem?_push]
      by_cases hi : h.index = slots.size
      · by_cases he : h.epoch = 0
        · have heq : h = ⟨slots.size, 0⟩ := by cases h; simp_all
          simp [heq]
        · have heq : h ≠ ⟨slots.size, 0⟩ := fun e => he (by rw [e])
          simp [hi, heq, Ne.symm he]
      · have heq : h ≠ ⟨slots.size, 0⟩ := fun e => hi (by rw [e])
        simp [hi, heq]
  | cons j free =>
      obtain ⟨epoch, hcell⟩ := hfree j List.mem_cons_self
      obtain ⟨slot, hslot, -⟩ := Option.map_eq_some_iff.1 hcell
      change slots[j]? = some slot at hslot
      simp only [allocate, get?, Array.getElem?_modify, hslot, Option.map_some, Option.getD_some]
      by_cases hi : h.index = j
      · by_cases he : h.epoch = slot.epoch
        · have heq : h = ⟨j, slot.epoch⟩ := by cases h; simp_all
          simp [heq, hslot]
        · have heq : h ≠ ⟨j, slot.epoch⟩ := fun e => he (by rw [e])
          simp [hi, heq, hslot, Ne.symm he]
      · have heq : h ≠ ⟨j, slot.epoch⟩ := fun e => hi (by rw [e])
        simp [heq, Ne.symm hi]

end Allocate

end Heap
end ManagedCode
