import ManagedCode.Proofs.Heap.Sweeping
import Mathlib.Data.List.Nodup

/-! When a heap is consistent: its lists of handles, its free list, its marks and its counters agree with its slots.
That an old object with a reference to a young one is remembered is said of each object by itself (`Remembers`), since
it depends on what the fields hold and the rest does not. This module treats the operations of a program; collections
are treated in the next. -/

namespace ManagedCode
namespace Heap

/-- The free list has no slot twice and lists exactly the empty slots. -/
structure FreeListExact (heap : Heap) : Prop where
  nodup : heap.free.Nodup
  mem_iff (i : Nat) : i ∈ heap.free ↔ ∃ epoch, heap.cell? i = some (epoch, false)

/-- The parts of a heap agree: each live object is listed once, with its generation; what is remembered is old; nothing
is marked; the empty slots are free; and every object ever made is live or reclaimed. -/
structure Consistent (heap : Heap) : Prop where
  young_nodup : heap.young.Nodup
  old_nodup : heap.old.Nodup
  remembered_nodup : heap.remembered.Nodup
  mem_young (h : Handle) : h ∈ heap.young ↔ heap.generation? h = some .young
  mem_old (h : Handle) : h ∈ heap.old ↔ heap.generation? h = some .old
  remembered_old : ∀ h ∈ heap.remembered, h ∈ heap.old
  unmarked (h : Handle) : heap.isMarked h = false
  free : heap.FreeListExact
  accounted : heap.stats.allocated = heap.objectCount + heap.stats.reclaimed

/-- If the object is old and refers to a young one, it is remembered. -/
def Remembers (heap : Heap) (h : Handle) : Prop :=
  ∀ c, heap.generation? h = some .old → heap.Refers h c → heap.generation? c = some .young → h ∈ heap.remembered

theorem get?_empty (h : Handle) : Heap.empty.get? h = none := by
  simp [get?, Heap.empty]

theorem cell?_empty (i : Nat) : Heap.empty.cell? i = none := by
  simp [cell?, Heap.empty]

theorem consistent_empty : Heap.empty.Consistent := by
  refine ⟨.nil, .nil, .nil, fun h => ?_, fun h => ?_, ?_, fun h => ?_, ⟨.nil, fun i => ?_⟩, rfl⟩
  · rw [generation?, get?_empty]
    simp [Heap.empty]
  · rw [generation?, get?_empty]
    simp [Heap.empty]
  · intro h hmem
    cases hmem
  · rw [isMarked, get?_empty]
    rfl
  · rw [cell?_empty]
    simp [Heap.empty]

/-! ### The free list -/

namespace FreeListExact

variable {heap : Heap} (hf : heap.FreeListExact)

include hf

theorem slotsEmpty : heap.FreeSlotsEmpty :=
  fun i hi => (hf.mem_iff i).1 hi

theorem modify (h : Handle) (f : Object → Object) : (heap.modify h f).FreeListExact := by
  refine ⟨hf.nodup, fun i => ?_⟩
  rw [cell?_modify]
  exact hf.mem_iff i

theorem release {h : Handle} (hlive : heap.contains h = true) : (heap.release h).FreeListExact := by
  have hfree : (heap.release h).free = h.index :: heap.free := by rw [release_eq hlive]
  have hnew : h.index ∉ heap.free := by
    rw [hf.mem_iff, contains_iff_cell?.1 hlive]
    simp
  refine ⟨?_, fun i => ?_⟩
  · rw [hfree]
    exact List.nodup_cons.2 ⟨hnew, hf.nodup⟩
  · rw [hfree, List.mem_cons, cell?_release hlive, hf.mem_iff]
    by_cases hi : i = h.index <;> simp [hi]

theorem allocate (type : Token) (typeName : String) (keys : List String) :
    (heap.allocate type typeName keys).1.FreeListExact := by
  refine ⟨?_, fun i => ?_⟩
  · rw [allocate_free]
    exact hf.nodup.tail
  · have hmem := hf.mem_iff i
    have hempty := hf.mem_iff (heap.allocate type typeName keys).2.index
    rw [allocate_free, cell?_allocate heap type typeName keys hf.slotsEmpty]
    have hnodup := hf.nodup
    -- The slot taken is the head of the free list; with an empty list it is a new one, and none is listed.
    have hindex : ∀ j rest, heap.free = j :: rest → (heap.allocate type typeName keys).2.index = j := by
      intro j rest hj
      obtain ⟨slots, free, young, old, remembered, stats⟩ := heap
      obtain rfl : free = j :: rest := hj
      rfl
    cases hlist : heap.free with
    | nil =>
        rw [hlist] at hmem
        by_cases hi : i = (heap.allocate type typeName keys).2.index
        · simp [hi]
        · rw [if_neg hi]
          exact hmem
    | cons j rest =>
        rw [hlist] at hmem hnodup
        rw [hindex j rest hlist, List.tail_cons]
        obtain ⟨hj, -⟩ := List.nodup_cons.1 hnodup
        by_cases hi : i = j
        · subst hi
          simp [hj]
        · rw [if_neg hi, ← hmem, List.mem_cons]
          simp [hi]

end FreeListExact

/-! ### Changes that keep generation and mark -/

section Modify

variable {heap : Heap} {f : Object → Object}

theorem generation?_modify (hgen : ∀ o, (f o).generation = o.generation) (h h' : Handle) :
    (heap.modify h f).generation? h' = heap.generation? h' := by
  rw [generation?, generation?, get?_modify]
  split
  · rw [Option.map_map]
    congr 1
    funext o
    exact hgen o
  · rfl

theorem isMarked_modify (hmark : ∀ o, (f o).marked = o.marked) (h h' : Handle) :
    (heap.modify h f).isMarked h' = heap.isMarked h' := by
  rw [isMarked, isMarked, get?_modify]
  split
  · cases heap.get? h' with
    | none => rfl
    | some o => exact hmark o
  · rfl

theorem Consistent.modify (hc : heap.Consistent) (hgen : ∀ o, (f o).generation = o.generation)
    (hmark : ∀ o, (f o).marked = o.marked) (h : Handle) : (heap.modify h f).Consistent where
  young_nodup := hc.young_nodup
  old_nodup := hc.old_nodup
  remembered_nodup := hc.remembered_nodup
  mem_young h' := by
    rw [generation?_modify hgen]
    exact hc.mem_young h'
  mem_old h' := by
    rw [generation?_modify hgen]
    exact hc.mem_old h'
  remembered_old := hc.remembered_old
  unmarked h' := by
    rw [isMarked_modify hmark]
    exact hc.unmarked h'
  free := hc.free.modify h f
  accounted := hc.accounted

end Modify

namespace Consistent

variable {heap : Heap} (hc : heap.Consistent)

include hc

theorem contains_iff_mem (h : Handle) : heap.contains h = true ↔ h ∈ heap.young ∨ h ∈ heap.old := by
  rw [hc.mem_young, hc.mem_old, contains_iff, generation?_eq_some_iff, generation?_eq_some_iff]
  constructor
  · rintro ⟨o, hget⟩
    cases hgen : o.generation with
    | young => exact Or.inl ⟨o, hget, hgen⟩
    | old => exact Or.inr ⟨o, hget, hgen⟩
  · rintro (⟨o, hget, -⟩ | ⟨o, hget, -⟩) <;> exact ⟨o, hget⟩

theorem contains_of_mem_remembered {h : Handle} (hmem : h ∈ heap.remembered) : heap.contains h = true :=
  (hc.contains_iff_mem h).2 (Or.inr (hc.remembered_old h hmem))

theorem disjoint : heap.young.Disjoint heap.old := by
  intro h hyoung hold
  rw [hc.mem_young] at hyoung
  rw [hc.mem_old, hyoung] at hold
  cases hold

/-! ### The write barrier -/

theorem writeBarrier (owner target : Handle) : (heap.writeBarrier owner target).Consistent := by
  unfold Heap.writeBarrier
  split
  · next hgens =>
    refine { hc with
      remembered_nodup := hc.remembered_nodup.insert, remembered_old := ?_,
      free := ⟨hc.free.nodup, hc.free.mem_iff⟩ }
    · intro h hmem
      rcases List.mem_insert_iff.1 hmem with rfl | hmem
      · exact (hc.mem_old h).2 hgens.1
      · exact hc.remembered_old h hmem
  · exact hc

end Consistent

theorem writeBarrier_slots (heap : Heap) (owner target : Handle) :
    (heap.writeBarrier owner target).slots = heap.slots := by
  unfold writeBarrier
  split <;> rfl

theorem writeBarrier_stats (heap : Heap) (owner target : Handle) :
    (heap.writeBarrier owner target).stats = heap.stats := by
  unfold writeBarrier
  split <;> rfl

theorem mem_remembered_writeBarrier {heap : Heap} {owner target h : Handle} :
    h ∈ (heap.writeBarrier owner target).remembered ↔ h ∈ heap.remembered ∨
      (h = owner ∧ heap.generation? owner = some .old ∧ heap.generation? target = some .young) := by
  unfold writeBarrier
  split
  · next hgens =>
    rw [List.mem_insert_iff]
    simp [hgens, or_comm]
  · next hgens => simp [hgens]

theorem refers_congr {heap heap' : Heap} (hslots : heap.slots = heap'.slots) {h c : Handle} :
    heap.Refers h c ↔ heap'.Refers h c := by
  rw [Refers, Refers, get?_congr hslots]

theorem generation?_congr {heap heap' : Heap} (hslots : heap.slots = heap'.slots) (h : Handle) :
    heap.generation? h = heap'.generation? h := by
  rw [generation?, generation?, get?_congr hslots]

theorem Remembers.writeBarrier {heap : Heap} {h : Handle} (hr : heap.Remembers h) (owner target : Handle) :
    (heap.writeBarrier owner target).Remembers h := by
  have hslots := heap.writeBarrier_slots owner target
  intro c hold href hyoung
  rw [generation?_congr hslots] at hold hyoung
  rw [refers_congr hslots] at href
  exact mem_remembered_writeBarrier.2 (Or.inl (hr c hold href hyoung))

/-! ### Storing a field -/

/-- The heap after a field of an object is given a value: the object is changed, and then the barrier is run. -/
def store (heap : Heap) (h : Handle) (key : String) (value : Value) : Heap :=
  let heap := heap.modify h fun o => o.setField key value
  match value.heapRef? with
  | some target => heap.writeBarrier h target
  | none => heap

theorem writeField_eq_ok_iff {heap heap' : Heap} {h : Handle} {key : String} {value : Value} :
    heap.writeField h key value = .ok heap' ↔
      ∃ o old, heap.get? h = some o ∧ o.field? key = some old ∧ heap' = heap.store h key value := by
  unfold writeField object
  cases hget : heap.get? h with
  | none => simp [bind, Except.bind]
  | some o =>
      cases hold : o.field? key with
      | none => simp [bind, Except.bind, hold]
      | some old =>
          cases href : value.heapRef? <;> simp [bind, Except.bind, hold, href, store, eq_comm]

section Store

variable {heap : Heap} (h : Handle) (key : String) (value : Value)

theorem store_slots :
    (heap.store h key value).slots = (heap.modify h fun o => o.setField key value).slots := by
  unfold store
  split
  · exact writeBarrier_slots ..
  · rfl

theorem store_stats : (heap.store h key value).stats = heap.stats := by
  unfold store
  split
  · exact writeBarrier_stats ..
  · rfl

theorem get?_store (h' : Handle) : (heap.store h key value).get? h' =
    if h' = h then (heap.get? h').map fun o => o.setField key value else heap.get? h' :=
  (get?_congr (store_slots h key value) h').trans (get?_modify ..)

theorem cell?_store (i : Nat) : (heap.store h key value).cell? i = heap.cell? i :=
  (cell?_congr (store_slots h key value) i).trans (cell?_modify ..)

theorem contains_store (h' : Handle) : (heap.store h key value).contains h' = heap.contains h' := by
  rw [Bool.eq_iff_iff, contains_iff_cell?, contains_iff_cell?, cell?_store]

theorem generation?_store (h' : Handle) : (heap.store h key value).generation? h' = heap.generation? h' :=
  (generation?_congr (store_slots h key value) h').trans
    (generation?_modify (f := fun o => o.setField key value) (fun _ => rfl) h h')

theorem Consistent.store (hc : heap.Consistent) : (heap.store h key value).Consistent := by
  have hmodified : (heap.modify h fun o => o.setField key value).Consistent :=
    hc.modify (f := fun o => o.setField key value) (fun _ => rfl) (fun _ => rfl) h
  unfold Heap.store
  split
  · exact hmodified.writeBarrier _ _
  · exact hmodified

end Store

end Heap

theorem Object.mem_refs_setField {o : Object} {key : String} {value : Value} {c : Handle}
    (hmem : c ∈ (o.setField key value).refs) : c ∈ o.refs ∨ value.heapRef? = some c := by
  simp only [refs, setField, List.map_map, List.mem_filterMap, List.mem_map] at hmem ⊢
  obtain ⟨v, ⟨⟨k, w⟩, hentry, hv⟩, href⟩ := hmem
  by_cases hk : k = key
  · simp only [Function.comp_apply, hk, if_true] at hv
    exact Or.inr (hv ▸ href)
  · simp only [Function.comp_apply, hk, if_false] at hv
    exact Or.inl ⟨v, ⟨(k, w), hentry, hv⟩, href⟩

namespace Heap

theorem Refers.of_store {heap : Heap} {h h' c : Handle} {key : String} {value : Value}
    (href : (heap.store h key value).Refers h' c) :
    heap.Refers h' c ∨ (h' = h ∧ value.heapRef? = some c) := by
  obtain ⟨o, hget, hc⟩ := href
  rw [get?_store] at hget
  split at hget
  · next heq =>
    obtain ⟨o₀, hget₀, rfl⟩ := Option.map_eq_some_iff.1 hget
    rcases Object.mem_refs_setField hc with hc | hc
    · exact Or.inl ⟨o₀, hget₀, hc⟩
    · exact Or.inr ⟨heq, hc⟩
  · exact Or.inl ⟨o, hget, hc⟩

/-- The barrier that a store runs keeps the remembered set complete. -/
theorem Remembers.store {heap : Heap} {h' : Handle} (hr : heap.Remembers h') (h : Handle) (key : String)
    (value : Value) : (heap.store h key value).Remembers h' := by
  intro c hold href hyoung
  rw [generation?_store] at hold hyoung
  have hgen : ∀ a, (heap.modify h fun o => o.setField key value).generation? a = heap.generation? a :=
    generation?_modify (f := fun o => o.setField key value) (fun _ => rfl) h
  rcases href.of_store with href | ⟨rfl, htarget⟩
  · have hmem := hr c hold href hyoung
    unfold Heap.store
    split
    · exact mem_remembered_writeBarrier.2 (Or.inl hmem)
    · exact hmem
  · unfold Heap.store
    rw [htarget]
    refine mem_remembered_writeBarrier.2 (Or.inr ⟨rfl, ?_, ?_⟩)
    · rw [hgen]
      exact hold
    · rw [hgen]
      exact hyoung

/-! ### New objects -/

section Allocate

variable {heap : Heap} (type : Token) (typeName : String) (keys : List String)

theorem generation?_allocate (hfree : heap.FreeSlotsEmpty) (h : Handle) :
    (heap.allocate type typeName keys).1.generation? h =
      if h = (heap.allocate type typeName keys).2 then some .young else heap.generation? h := by
  rw [generation?, generation?, get?_allocate heap type typeName keys hfree]
  split <;> rfl

theorem contains_allocate (hfree : heap.FreeSlotsEmpty) (h : Handle) :
    (heap.allocate type typeName keys).1.contains h = true ↔
      h = (heap.allocate type typeName keys).2 ∨ heap.contains h = true := by
  rw [contains, contains, get?_allocate heap type typeName keys hfree]
  split <;> simp [*]

theorem refs_blankObject : (blankObject type typeName keys).refs = [] := by
  rw [Object.refs, blankObject, List.map_map, List.filterMap_eq_nil_iff]
  intro v hv
  obtain ⟨key, -, rfl⟩ := List.mem_map.1 hv
  rfl

theorem Refers.of_allocate {h c : Handle} (hfree : heap.FreeSlotsEmpty)
    (href : (heap.allocate type typeName keys).1.Refers h c) : heap.Refers h c := by
  obtain ⟨o, hget, hc⟩ := href
  rw [get?_allocate heap type typeName keys hfree] at hget
  split at hget
  · obtain rfl := Option.some.inj hget
    rw [refs_blankObject] at hc
    cases hc
  · exact ⟨o, hget, hc⟩

theorem Consistent.allocate (hc : heap.Consistent) : (heap.allocate type typeName keys).1.Consistent := by
  have hfree := hc.free.slotsEmpty
  have hdead := heap.not_contains_allocated type typeName keys hfree
  have hnew : (heap.allocate type typeName keys).2 ∉ heap.young ∧
      (heap.allocate type typeName keys).2 ∉ heap.old := by
    rw [← not_or, ← hc.contains_iff_mem, hdead]
    simp
  refine ⟨?_, ?_, ?_, fun h => ?_, fun h => ?_, ?_, fun h => ?_, hc.free.allocate type typeName keys, ?_⟩
  · rw [allocate_young]
    exact List.nodup_cons.2 ⟨hnew.1, hc.young_nodup⟩
  · rw [allocate_old]
    exact hc.old_nodup
  · rw [allocate_remembered]
    exact hc.remembered_nodup
  · rw [allocate_young, List.mem_cons, generation?_allocate type typeName keys hfree, hc.mem_young]
    split <;> simp [*]
  · rw [allocate_old, generation?_allocate type typeName keys hfree, hc.mem_old]
    split
    · next heq =>
      have hnone : heap.get? h = none := by
        rw [heq]
        simpa [contains] using hdead
      simp [generation?, hnone]
    · rfl
  · rw [allocate_remembered, allocate_old]
    exact hc.remembered_old
  · rw [isMarked, get?_allocate heap type typeName keys hfree]
    split
    · rfl
    · exact hc.unmarked h
  · have haccounted := hc.accounted
    rw [objectCount] at haccounted ⊢
    rw [allocate_young, allocate_old, allocate_stats, List.length_cons]
    simp only
    omega

/-- A new object leaves the remembered set complete for objects that do not refer to it. -/
theorem Remembers.allocate {h : Handle} (hr : heap.Remembers h) (hfree : heap.FreeSlotsEmpty)
    (hnew : ¬heap.Refers h (heap.allocate type typeName keys).2) :
    (heap.allocate type typeName keys).1.Remembers h := by
  intro c hold href hyoung
  have href := Refers.of_allocate type typeName keys hfree href
  have hne : c ≠ (heap.allocate type typeName keys).2 := fun e => hnew (e ▸ href)
  rw [generation?_allocate type typeName keys hfree] at hold hyoung
  rw [if_neg hne] at hyoung
  rw [allocate_remembered]
  split at hold
  · cases hold
  · exact hr c hold href hyoung

end Allocate
end Heap
end ManagedCode
