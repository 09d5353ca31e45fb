import ManagedCode.Proofs.Heap.Collection
import Mathlib

/-! Heaps that come about by any sequence of operations on an empty heap, given any handles that were issued before,
also of objects that are gone. Such a heap is consistent and its remembered set is complete. A handle kept after its
object is gone has an epoch that its slot has passed, and with fewer than 2^32 objects made no epoch comes round again;
so no field refers to an object that is made later, which would escape the write barrier. -/

namespace ManagedCode

/-- An operation on a heap. A collection may visit objects in any order. -/
inductive HeapOperation where
  | allocate (type : Token) (typeName : String) (keys : List String)
  | writeField (owner : Handle) (key : String) (value : Value)
  | writeBarrier (owner target : Handle)
  | collectMinor (order : Traversal) (roots : List Value)
  | collectMajor (order : Traversal) (roots : List Value)

namespace HeapOperation

/-- The handles that an operation is given. -/
def handles : HeapOperation → List Handle
  | .allocate .. => []
  | .writeField owner _ value => owner :: value.heapRef?.toList
  | .writeBarrier owner target => [owner, target]
  | .collectMinor _ roots | .collectMajor _ roots => roots.filterMap Value.heapRef?

/-- The heap after an operation; a store that fails leaves it as it was. -/
def apply (heap : Heap) : HeapOperation → Heap
  | .allocate type typeName keys => (heap.allocate type typeName keys).1
  | .writeField owner key value =>
      match heap.writeField owner key value with
      | .ok heap' => heap'
      | .error _ => heap
  | .writeBarrier owner target => heap.writeBarrier owner target
  | .collectMinor order roots => heap.collectMinorBy order roots
  | .collectMajor order roots => heap.collectMajorBy order roots

/-- The handles that an operation issues. -/
def issues (heap : Heap) : HeapOperation → List Handle
  | .allocate type typeName keys => [(heap.allocate type typeName keys).2]
  | _ => []

end HeapOperation

namespace Heap

/-- The heap comes about by operations on an empty one, which have issued the given handles, the last one first, and
were given only handles issued before. -/
inductive History : List Handle → Heap → Prop where
  | empty : History [] .empty
  | step {issued : List Handle} {heap : Heap} (op : HeapOperation) (hist : History issued heap)
      (hgiven : ∀ h ∈ op.handles, h ∈ issued) : History (op.issues heap ++ issued) (op.apply heap)

/-- Every issued handle is that of a taken slot in its present epoch or of an earlier epoch, and no slot is in a later
epoch than the number of issued handles allows. -/
structure Past (issued : List Handle) (cells : Nat → Option (UInt32 × Bool)) : Prop where
  seen : ∀ h ∈ issued, ∃ epoch taken, cells h.index = some (epoch, taken) ∧
    (h.epoch.toNat < epoch.toNat ∨ h.epoch = epoch ∧ taken = true)
  bounded : ∀ i epoch taken, cells i = some (epoch, taken) → epoch.toNat + taken.toNat ≤ issued.length

/-- The limit on the number of objects ever made up to which an epoch is not used twice. -/
def issueLimit : Nat := UInt32.size

namespace Past

variable {issued : List Handle} {heap : Heap}

/-- A release moves a slot to an epoch that it has not been in. -/
theorem release (hlimit : issued.length < issueLimit) {h : Handle} (hlive : heap.contains h = true)
    (hp : Past issued heap.cell?) : Past issued (heap.release h).cell? := by
  have hcell := contains_iff_cell?.1 hlive
  have hbound : h.epoch.toNat + 1 ≤ issued.length := hp.bounded h.index h.epoch true hcell
  have hnext : (h.epoch + 1).toNat = h.epoch.toNat + 1 := by
    rw [UInt32.toNat_add]
    exact Nat.mod_eq_of_lt (Nat.lt_of_le_of_lt hbound hlimit)
  refine ⟨fun h' hmem => ?_, fun i epoch taken hcell' => ?_⟩
  · rw [cell?_release hlive]
    obtain ⟨epoch, taken, hcell', hage⟩ := hp.seen h' hmem
    by_cases hindex : h'.index = h.index
    · refine ⟨h.epoch + 1, false, if_pos hindex, Or.inl ?_⟩
      rw [hindex, hcell] at hcell'
      obtain ⟨rfl, rfl⟩ := Prod.mk.inj (Option.some.inj hcell')
      rw [hnext]
      rcases hage with hlt | ⟨heq, -⟩
      · omega
      · rw [heq]
        omega
    · exact ⟨epoch, taken, (if_neg hindex).trans hcell', hage⟩
  · rw [cell?_release hlive] at hcell'
    split at hcell'
    · obtain ⟨rfl, rfl⟩ := Prod.mk.inj (Option.some.inj hcell')
      rw [hnext]
      exact hbound
    · exact hp.bounded i epoch taken hcell'

section Allocate

variable (type : Token) (typeName : String) (keys : List String) (hfree : heap.FreeSlotsEmpty)

include hfree

theorem allocated_not_mem (hp : Past issued heap.cell?) : (heap.allocate type typeName keys).2 ∉ issued := by
  intro hmem
  obtain ⟨epoch, taken, hcell, hage⟩ := hp.seen _ hmem
  rcases heap.cell?_allocated type typeName keys hfree with hempty | ⟨hnone, -⟩
  · rw [hempty] at hcell
    obtain ⟨rfl, rfl⟩ := Prod.mk.inj (Option.some.inj hcell)
    rcases hage with hlt | ⟨-, htaken⟩
    · exact Nat.lt_irrefl _ hlt
    · cases htaken
  · rw [hnone] at hcell
    cases hcell

theorem allocate (hp : Past issued heap.cell?) :
    Past ((heap.allocate type typeName keys).2 :: issued) (heap.allocate type typeName keys).1.cell? := by
  have hcells := heap.cell?_allocate type typeName keys hfree
  have hempty := heap.cell?_allocated type typeName keys hfree
  refine ⟨fun h hmem => ?_, fun i epoch taken hcell => ?_⟩
  · by_cases hindex : h.index = (heap.allocate type typeName keys).2.index
    · refine ⟨_, true, (hcells _).trans (if_pos hindex), ?_⟩
      rcases List.mem_cons.1 hmem with rfl | hmem
      · exact Or.inr ⟨rfl, rfl⟩
      · obtain ⟨epoch, taken, hcell, hage⟩ := hp.seen h hmem
        rw [hindex] at hcell
        rcases hempty with hempty | ⟨hnone, -⟩
        · rw [hempty] at hcell
          obtain ⟨rfl, rfl⟩ := Prod.mk.inj (Option.some.inj hcell)
          exact Or.inl (hage.resolve_right fun htaken => Bool.false_ne_true htaken.2)
        · rw [hnone] at hcell
          cases hcell
    · rcases List.mem_cons.1 hmem with rfl | hmem
      · exact absurd rfl hindex
      · obtain ⟨epoch, taken, hcell, hage⟩ := hp.seen h hmem
        exact ⟨epoch, taken, ((hcells _).trans (if_neg hindex)).trans hcell, hage⟩
  · rw [List.length_cons]
    rw [hcells] at hcell
    split at hcell
    · obtain ⟨rfl, rfl⟩ := Prod.mk.inj (Option.some.inj hcell)
      rcases hempty with hempty | ⟨-, hzero⟩
      · have hbound := hp.bounded _ _ _ hempty
        simp only [Bool.toNat_false, Bool.toNat_true] at hbound ⊢
        omega
      · rw [hzero]
        simp
    · exact Nat.le_succ_of_le (hp.bounded i epoch taken hcell)

end Allocate
end Past

/-- What every history keeps: the heap is consistent, its remembered set is complete, its fields refer to issued
handles, and the issued handles are of the past. -/
structure Traced (issued : List Handle) (heap : Heap) : Prop where
  consistent : heap.Consistent
  remembers : ∀ h, heap.Remembers h
  refers : ∀ h c, heap.Refers h c → c ∈ issued
  past : Past issued heap.cell?

theorem traced_empty : Traced [] Heap.empty := by
  have hrefers : ∀ h c, ¬Heap.empty.Refers h c := by
    rintro h c ⟨o, hget, -⟩
    rw [get?_empty] at hget
    cases hget
  refine ⟨consistent_empty, ?_, ?_, fun h hmem => ?_, fun i epoch taken hcell => ?_⟩
  · intro h c _ href
    exact absurd href (hrefers h c)
  · intro h c href
    exact absurd href (hrefers h c)
  · cases hmem
  · rw [cell?_empty] at hcell
    cases hcell

namespace Traced

variable {issued : List Handle} {heap : Heap} (ht : Traced issued heap)

include ht

theorem allocate (type : Token) (typeName : String) (keys : List String) :
    Traced ((heap.allocate type typeName keys).2 :: issued) (heap.allocate type typeName keys).1 := by
  have hfree := ht.consistent.free.slotsEmpty
  have hnew := ht.past.allocated_not_mem type typeName keys hfree
  refine ⟨ht.consistent.allocate type typeName keys, fun h => ?_, fun h c href => ?_,
    ht.past.allocate type typeName keys hfree⟩
  · exact (ht.remembers h).allocate type typeName keys hfree fun href => hnew (ht.refers _ _ href)
  · exact List.mem_cons_of_mem _ (ht.refers h c (Refers.of_allocate type typeName keys hfree href))

theorem store (owner : Handle) (key : String) {value : Value}
    (hvalue : ∀ c, value.heapRef? = some c → c ∈ issued) : Traced issued (heap.store owner key value) := by
  refine ⟨ht.consistent.store owner key value, fun h => (ht.remembers h).store owner key value,
    fun h c href => ?_, ?_⟩
  · rcases href.of_store with href | ⟨-, hc⟩
    · exact ht.refers h c href
    · exact hvalue c hc
  · rw [show (heap.store owner key value).cell? = heap.cell? from funext (cell?_store owner key value)]
    exact ht.past

theorem writeBarrier (owner target : Handle) : Traced issued (heap.writeBarrier owner target) := by
  have hslots := heap.writeBarrier_slots owner target
  refine ⟨ht.consistent.writeBarrier owner target, fun h => (ht.remembers h).writeBarrier owner target,
    fun h c href => ht.refers h c ((refers_congr hslots).1 href), ?_⟩
  rw [show (heap.writeBarrier owner target).cell? = heap.cell? from funext (cell?_congr hslots)]
  exact ht.past

theorem collected {roots : List Value} {heap' : Heap} (hk : Collected roots heap heap')
    (hpast : Past issued heap'.cell?) : Traced issued heap' where
  consistent := hk.consistent
  remembers h := hk.remembers h (ht.remembers h)
  refers h c href := ht.refers h c (hk.refers_before href)
  past := hpast

/-- **What one operation keeps.** -/
theorem step (op : HeapOperation) (hgiven : ∀ h ∈ op.handles, h ∈ issued)
    (hlimit : issued.length < issueLimit) : Traced (op.issues heap ++ issued) (op.apply heap) := by
  cases op with
  | allocate type typeName keys => exact ht.allocate type typeName keys
  | writeField owner key value =>
      have hvalue : ∀ c, value.heapRef? = some c → c ∈ issued := by
        intro c hc
        refine hgiven c (List.mem_cons_of_mem _ ?_)
        rw [hc]
        exact List.mem_singleton.2 rfl
      change Traced issued (HeapOperation.apply heap (.writeField owner key value))
      unfold HeapOperation.apply
      dsimp only
      split
      · next heap' hwrite =>
        obtain ⟨-, -, -, -, rfl⟩ := writeField_eq_ok_iff.1 hwrite
        exact ht.store owner key hvalue
      · exact ht
  | writeBarrier owner target => exact ht.writeBarrier owner target
  | collectMinor order roots =>
      exact ht.collected (ht.consistent.collected_collectMinorBy order roots)
        (ht.consistent.cells_collectMinorBy order roots (fun _ _ hlive hp => hp.release hlimit hlive) ht.past)
  | collectMajor order roots =>
      exact ht.collected (ht.consistent.collected_collectMajorBy order roots)
        (ht.consistent.cells_collectMajorBy order roots (fun _ _ hlive hp => hp.release hlimit hlive) ht.past)

end Traced

theorem History.traced {issued : List Handle} {heap : Heap} (hist : History issued heap)
    (hlimit : issued.length < issueLimit) : Traced issued heap := by
  induction hist with
  | empty => exact traced_empty
  | step op _ hgiven ih =>
      have hbefore := Nat.lt_of_le_of_lt (List.sublist_append_right _ _).length_le hlimit
      exact (ih hbefore).step op hgiven hbefore

/-! ### Slots as words -/

theorem slots_size_le_iff {heap : Heap} {n : Nat} :
    heap.slots.size ≤ n ↔ ∀ i, heap.cell? i ≠ none → i < n := by
  have hcell : ∀ i, heap.cell? i ≠ none ↔ i < heap.slots.size := by simp [cell?]
  constructor
  · intro h i hi
    exact Nat.lt_of_lt_of_le ((hcell i).1 hi) h
  · intro h
    by_contra hlt
    exact Nat.lt_irrefl n (h n ((hcell n).2 (Nat.lt_of_not_le hlt)))

theorem release_slots {n : Nat} (heap : Heap) (h : Handle) (hlive : heap.contains h = true)
    (hbefore : ∀ i, heap.cell? i ≠ none → i < n) : ∀ i, (heap.release h).cell? i ≠ none → i < n := by
  intro i hi
  rw [cell?_release hlive] at hi
  split at hi
  · next heq =>
    refine hbefore i ?_
    rw [heq, contains_iff_cell?.1 hlive]
    simp
  · exact hbefore i hi

/-- Only a new object takes another slot. -/
theorem Consistent.slots_size_apply_le {heap : Heap} (hc : heap.Consistent) (op : HeapOperation) :
    (op.apply heap).slots.size ≤ heap.slots.size + (op.issues heap).length := by
  have hsame : ∀ i, heap.cell? i ≠ none → i < heap.slots.size := slots_size_le_iff.1 (Nat.le_refl _)
  cases op with
  | allocate type typeName keys =>
      obtain ⟨slots, free, young, old, remembered, stats⟩ := heap
      cases free <;> simp [HeapOperation.apply, HeapOperation.issues, Heap.allocate]
  | writeField owner key value =>
      change (HeapOperation.apply heap (.writeField owner key value)).slots.size ≤ heap.slots.size
      unfold HeapOperation.apply
      dsimp only
      split
      · next heap' hwrite =>
        obtain ⟨-, -, -, -, rfl⟩ := writeField_eq_ok_iff.1 hwrite
        refine slots_size_le_iff.2 fun i hi => hsame i ?_
        rwa [cell?_store] at hi
      · exact Nat.le_refl _
  | writeBarrier owner target =>
      change (heap.writeBarrier owner target).slots.size ≤ heap.slots.size
      rw [writeBarrier_slots]
  | collectMinor order roots =>
      exact slots_size_le_iff.2 (hc.cells_collectMinorBy (P := fun cells => ∀ i, cells i ≠ none → i < heap.slots.size)
        order roots release_slots hsame)
  | collectMajor order roots =>
      exact slots_size_le_iff.2 (hc.cells_collectMajorBy (P := fun cells => ∀ i, cells i ≠ none → i < heap.slots.size)
        order roots release_slots hsame)

theorem History.slots_size_le {issued : List Handle} {heap : Heap} (hist : History issued heap)
    (hlimit : issued.length < issueLimit) : heap.slots.size ≤ issued.length := by
  induction hist with
  | empty => exact Nat.zero_le _
  | @step issued heap op hist hgiven ih =>
      rw [List.length_append] at hlimit ⊢
      have hbefore := Nat.lt_of_le_of_lt (Nat.le_add_left _ _) hlimit
      have hstep := (hist.traced hbefore).consistent.slots_size_apply_le op
      have hsize := ih hbefore
      omega

/-- As long as fewer than 2^32 objects are made, the slots of all handles are numbered by words. -/
theorem History.index_lt {issued : List Handle} {heap : Heap} (hist : History issued heap)
    (hlimit : issued.length < issueLimit) : ∀ h ∈ issued, h.index < UInt32.size := by
  intro h hmem
  obtain ⟨epoch, taken, hcell, -⟩ := (hist.traced hlimit).past.seen h hmem
  have hlt : h.index < issued.length := slots_size_le_iff.1 (hist.slots_size_le hlimit) h.index (by simp [hcell])
  exact hlt.trans hlimit

/-! ### The representation -/

/-- **The representation invariant.** After any operations that make fewer than 2^32 objects, the parts of a heap agree,
its two generations share no handle and list exactly the live objects, and every old object that refers to a young one
is remembered. -/
theorem History.representation {issued : List Handle} {heap : Heap} (hist : History issued heap)
    (hlimit : issued.length < issueLimit) :
    heap.Consistent ∧ heap.young.Disjoint heap.old ∧
      (∀ h, heap.contains h = true ↔ h ∈ heap.young ∨ h ∈ heap.old) ∧ ∀ h, heap.Remembers h := by
  have ht := hist.traced hlimit
  exact ⟨ht.consistent, ht.consistent.disjoint, ht.consistent.contains_iff_mem, ht.remembers⟩

/-- A history in which an object grows old and is then given a reference to a young one. -/
theorem History.representation_remembered : ∃ issued heap, History issued heap ∧ heap.remembered = [⟨0, 0⟩] ∧
    heap.Consistent ∧ heap.young.Disjoint heap.old ∧
      (∀ h, heap.contains h = true ↔ h ∈ heap.young ∨ h ∈ heap.old) ∧ ∀ h, heap.Remembers h := by
  have made := History.empty.step (.allocate (.ofRow .typeDef 1) "Node" ["next"]) (by decide)
  have aged := made.step (.collectMinor .stored [.object ⟨0, 0⟩]) (by decide_cbv)
  have joined := aged.step (.allocate (.ofRow .typeDef 1) "Node" ["next"]) (by decide_cbv)
  have stored := joined.step (.writeField ⟨0, 0⟩ "next" (.object ⟨1, 0⟩)) (by decide_cbv)
  exact ⟨_, _, stored, by decide_cbv, stored.representation (by decide_cbv)⟩

end Heap
end ManagedCode
