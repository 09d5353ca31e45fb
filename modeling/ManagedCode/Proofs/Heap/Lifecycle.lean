import ManagedCode.Proofs.Heap.History

/-! The life of a handle. An object is young when it is made, may become old in a minor collection, and goes in a
collection; it never takes a step back. Operations are given any handles at all here, also ones that were never issued,
since epochs alone tell a handle from its successors in the same slot. The slots themselves are a stack: what is emptied
last is used first. -/

namespace ManagedCode

namespace HeapOperation

/-- The handles that an operation goes through to release what is not marked, in this order. -/
def swept (heap : Heap) : HeapOperation → List Handle
  | .collectMinor order _ => order.handles heap.young
  | .collectMajor order _ => heap.majorHandles order
  | _ => []

/-- The changes of a handle's generation that an operation may make, with `none` for an object that is gone. -/
inductive Moves : HeapOperation → Option Generation → Option Generation → Prop where
  | stays (op : HeapOperation) (g : Option Generation) : Moves op g g
  | ages (order : Traversal) (roots : List Value) : Moves (.collectMinor order roots) (some .young) (some .old)
  | diesYoung (order : Traversal) (roots : List Value) : Moves (.collectMinor order roots) (some .young) none
  | dies (order : Traversal) (roots : List Value) (g : Generation) : Moves (.collectMajor order roots) (some g) none

end HeapOperation

/-- The stages of an object's life in their order: young, old, gone. -/
def phase : Option Generation → Nat
  | some .young => 0
  | some .old => 1
  | none => 2

theorem HeapOperation.Moves.phase_le {op : HeapOperation} {g g' : Option Generation} (hm : op.Moves g g') :
    phase g ≤ phase g' := by
  cases hm with
  | stays => exact Nat.le_refl _
  | ages => decide
  | diesYoung => decide
  | dies _ _ g => cases g <;> decide

theorem phase_eq_two {g : Option Generation} (hlate : 2 ≤ phase g) : g = none := by
  match g with
  | none => rfl
  | some .young => exact absurd hlate (by decide)
  | some .old => exact absurd hlate (by decide)

namespace Heap

/-! ### The stack of empty slots -/

theorem Sweeps.free_foldl {f : Object → Object} {step : Heap → Handle → Heap} (hs : Sweeps f step) {l : List Handle}
    (hnodup : l.Nodup) {heap : Heap} (hlive : ∀ h ∈ l, heap.contains h = true) :
    (l.foldl step heap).free = ((l.filter fun h => !heap.isMarked h).map Handle.index).reverse ++ heap.free := by
  induction l generalizing heap with
  | nil => rfl
  | cons a l ih =>
      obtain ⟨ha, hnodup⟩ := List.nodup_cons.1 hnodup
      have hne : ∀ h ∈ l, h ≠ a := fun h hmem e => ha (e ▸ hmem)
      have hone : (step heap a).free = (if heap.isMarked a then [] else [a.index]) ++ heap.free := by
        rw [hs.free, sweepStep]
        by_cases hmarked : heap.isMarked a = true
        · rw [if_pos hmarked, if_pos hmarked]
          rfl
        · rw [if_neg hmarked, if_neg hmarked, release_eq (hlive a List.mem_cons_self)]
          rfl
      have hsame : (l.filter fun h => !(step heap a).isMarked h) = l.filter fun h => !heap.isMarked h :=
        List.filter_congr fun h hmem => by rw [hs.isMarked_step_of_ne heap (hne h hmem)]
      have hlive' : ∀ h ∈ l, (step heap a).contains h = true := fun h hmem => by
        rw [hs.contains_step_of_ne heap (hne h hmem)]
        exact hlive h (List.mem_cons_of_mem _ hmem)
      rw [List.foldl_cons, ih hnodup hlive', hsame, hone, List.filter_cons]
      by_cases hmarked : heap.isMarked a = true <;> simp [hmarked]

theorem allocate_index (heap : Heap) (type : Token) (typeName : String) (keys : List String) :
    (heap.allocate type typeName keys).2.index = heap.free.headD heap.slots.size := by
  obtain ⟨slots, free, young, old, remembered, stats⟩ := heap
  cases free <;> rfl

theorem writeBarrier_free (heap : Heap) (owner target : Handle) :
    (heap.writeBarrier owner target).free = heap.free := by
  unfold writeBarrier
  split <;> rfl

theorem store_free (heap : Heap) (h : Handle) (key : String) (value : Value) :
    (heap.store h key value).free = heap.free := by
  unfold store
  split
  · exact writeBarrier_free ..
  · rfl

theorem writeField_eq (heap : Heap) (owner : Handle) (key : String) (value : Value) :
    heap.writeField owner key value = (heap.object owner).bind fun o =>
      if (o.field? key).isSome then .ok (heap.store owner key value) else .error (.fieldNotPresent key o.typeName) := by
  unfold writeField store
  refine congrArg (Except.bind _) (funext fun o => ?_)
  cases o.field? key with
  | none => rfl
  | some old => cases value.heapRef? <;> rfl

/-- A store changes the heap if the object is there and has the field. -/
theorem apply_writeField (heap : Heap) (owner : Handle) (key : String) (value : Value) :
    HeapOperation.apply heap (.writeField owner key value) =
      if ((heap.get? owner).bind (·.field? key)).isSome then heap.store owner key value else heap := by
  unfold HeapOperation.apply
  dsimp only
  rw [writeField_eq, object]
  cases heap.get? owner with
  | none => rfl
  | some o =>
      dsimp only [Except.bind, Option.bind]
      by_cases hfield : (o.field? key).isSome = true
      · rw [if_pos hfield, if_pos hfield]
      · rw [if_neg hfield, if_neg hfield]

namespace Consistent

variable {heap : Heap} (hc : heap.Consistent)

include hc

/-- The parts of a heap agree after any operation, whatever handles it is given. -/
theorem apply (op : HeapOperation) : (op.apply heap).Consistent := by
  cases op with
  | allocate type typeName keys => exact hc.allocate type typeName keys
  | writeField owner key value =>
      rw [apply_writeField]
      split
      · exact hc.store owner key value
      · exact hc
  | writeBarrier owner target => exact hc.writeBarrier owner target
  | collectMinor order roots => exact hc.collectMinorBy order roots
  | collectMajor order roots => exact hc.collectMajorBy order roots

theorem isMarked_eq_contains_collectMinorBy (order : Traversal) (roots : List Value) {h : Handle}
    (hmem : h ∈ order.handles heap.young) :
    (heap.minorMarked order roots).isMarked h = (heap.collectMinorBy order roots).contains h := by
  have hyoung := (hc.mem_young h).1 ((order.handles_perm _).mem_iff.1 hmem)
  rw [Bool.eq_iff_iff, hc.isMarked_minorMarked, hc.contains_collectMinorBy, hyoung]
  simp

theorem isMarked_eq_contains_collectMajorBy (order : Traversal) (roots : List Value) (h : Handle) :
    (heap.majorMarked order roots).isMarked h = (heap.collectMajorBy order roots).contains h := by
  rw [Bool.eq_iff_iff, hc.isMarked_majorMarked, hc.contains_collectMajorBy]

/-- **The empty slots are a stack.** A new object takes the slot on top, and a collection puts the slots it empties on
top one by one. -/
theorem free_apply (op : HeapOperation) : (op.apply heap).free =
    (((op.swept heap).filter fun h => !(op.apply heap).contains h).map Handle.index).reverse ++
      heap.free.drop (op.issues heap).length := by
  cases op with
  | allocate type typeName keys =>
      exact (heap.allocate_free type typeName keys).trans List.drop_one.symm
  | writeField owner key value =>
      rw [apply_writeField]
      split
      · exact heap.store_free owner key value
      · rfl
  | writeBarrier owner target => exact heap.writeBarrier_free owner target
  | collectMinor order roots =>
      have hmarked : (heap.minorMarked order roots).free = heap.free := mark_free
      calc
        (heap.collectMinorBy order roots).free = (heap.minorSwept order roots).free := by rw [collectMinorBy_eq]
        _ = (((order.handles heap.young).filter fun h => !(heap.minorMarked order roots).isMarked h).map
              Handle.index).reverse ++ (heap.minorMarked order roots).free :=
          sweeps_settle.free_foldl (hc.handles_young_nodup order) (hc.handles_young_live order roots)
        _ = _ := by
          rw [hmarked, List.filter_congr fun h hmem => by
            rw [hc.isMarked_eq_contains_collectMinorBy order roots hmem]]
          rfl
  | collectMajor order roots =>
      have hmarked : (heap.majorMarked order roots).free = heap.free := mark_free
      calc
        (heap.collectMajorBy order roots).free = (heap.majorSwept order roots).free := by rw [hc.collectMajorBy_eq]
        _ = (((heap.majorHandles order).filter fun h => !(heap.majorMarked order roots).isMarked h).map
              Handle.index).reverse ++ (heap.majorMarked order roots).free :=
          (sweeps_sweepStep _).free_foldl (hc.majorHandles_nodup order) (hc.majorHandles_live order roots)
        _ = _ := by
          rw [hmarked, List.filter_congr fun h _ => by
            rw [hc.isMarked_eq_contains_collectMajorBy order roots h]]
          rfl

/-! ### One operation -/

theorem moves_collectMinor (order : Traversal) (roots : List Value) (h : Handle) :
    (HeapOperation.collectMinor order roots).Moves (heap.generation? h)
      ((heap.collectMinorBy order roots).generation? h) := by
  have hafter := fun g => hc.generation?_collectMinorBy order roots (h := h) (g := g)
  cases hgen' : (heap.collectMinorBy order roots).generation? h with
  | none =>
      cases hgen : heap.generation? h with
      | none => exact .stays _ _
      | some g =>
          cases g with
          | young => exact .diesYoung order roots
          | old =>
              have hkept := (hafter .old).2 ⟨rfl, Or.inl hgen⟩
              rw [hgen'] at hkept
              cases hkept
  | some g' =>
      obtain ⟨rfl, hold | hreach⟩ := (hafter g').1 hgen'
      · rw [hold]
        exact .stays _ _
      · rw [passes_true_iff.1 hreach.passes]
        exact .ages order roots

theorem moves_collectMajor (order : Traversal) (roots : List Value) (h : Handle) :
    (HeapOperation.collectMajor order roots).Moves (heap.generation? h)
      ((heap.collectMajorBy order roots).generation? h) := by
  cases hgen' : (heap.collectMajorBy order roots).generation? h with
  | none =>
      cases hgen : heap.generation? h with
      | none => exact .stays _ _
      | some g => exact .dies order roots g
  | some g' =>
      rw [((hc.generation?_collectMajorBy order roots).1 hgen').1]
      exact .stays _ _

/-- A handle that an operation does not issue moves on only as the operation allows. -/
theorem moves (op : HeapOperation) {h : Handle} (hother : h ∉ op.issues heap) :
    op.Moves (heap.generation? h) ((op.apply heap).generation? h) := by
  cases op with
  | allocate type typeName keys =>
      have hne : h ≠ (heap.allocate type typeName keys).2 := fun e => hother (e ▸ List.mem_singleton.2 rfl)
      change HeapOperation.Moves _ _ ((heap.allocate type typeName keys).1.generation? h)
      rw [generation?_allocate type typeName keys hc.free.slotsEmpty, if_neg hne]
      exact .stays _ _
  | writeField owner key value =>
      rw [apply_writeField]
      split
      · rw [generation?_store]
        exact .stays _ _
      · exact .stays _ _
  | writeBarrier owner target =>
      change HeapOperation.Moves _ _ ((heap.writeBarrier owner target).generation? h)
      rw [generation?_congr (heap.writeBarrier_slots owner target)]
      exact .stays _ _
  | collectMinor order roots => exact hc.moves_collectMinor order roots h
  | collectMajor order roots => exact hc.moves_collectMajor order roots h

end Consistent

/-! ### All operations -/

/-- Operations lead from one heap to another, where the lists are of the handles issued until then, the last one first.
They may be given any handles. -/
inductive Evolves (issued : List Handle) (heap : Heap) : List Handle → Heap → Prop where
  | refl : Evolves issued heap issued heap
  | step {issued' : List Handle} {heap' : Heap} (op : HeapOperation) (hbefore : Evolves issued heap issued' heap') :
      Evolves issued heap (op.issues heap' ++ issued') (op.apply heap')

/-- What any operations keep: the heap is consistent, and the issued handles are distinct and of the past. -/
structure Dated (issued : List Handle) (heap : Heap) : Prop where
  consistent : heap.Consistent
  past : Past issued heap.cell?
  distinct : issued.Nodup

theorem dated_empty : Dated [] Heap.empty :=
  ⟨consistent_empty, traced_empty.past, .nil⟩

namespace Dated

variable {issued : List Handle} {heap : Heap} (hd : Dated issued heap)

include hd

theorem allocated_not_mem (type : Token) (typeName : String) (keys : List String) :
    (heap.allocate type typeName keys).2 ∉ issued :=
  hd.past.allocated_not_mem type typeName keys hd.consistent.free.slotsEmpty

theorem not_mem_issues (op : HeapOperation) {h : Handle} (hmem : h ∈ issued) : h ∉ op.issues heap := by
  cases op with
  | allocate type typeName keys =>
      intro hnew
      exact hd.allocated_not_mem type typeName keys (List.mem_singleton.1 hnew ▸ hmem)
  | _ => exact List.not_mem_nil

theorem step (op : HeapOperation) (hlimit : issued.length < issueLimit) :
    Dated (op.issues heap ++ issued) (op.apply heap) := by
  refine ⟨hd.consistent.apply op, ?_, ?_⟩
  · cases op with
    | allocate type typeName keys => exact hd.past.allocate type typeName keys hd.consistent.free.slotsEmpty
    | writeField owner key value =>
        have hcells : (HeapOperation.apply heap (.writeField owner key value)).cell? = heap.cell? := by
          rw [apply_writeField]
          split
          · exact funext (cell?_store owner key value)
          · rfl
        rw [hcells]
        exact hd.past
    | writeBarrier owner target =>
        change Past issued (heap.writeBarrier owner target).cell?
        rw [show (heap.writeBarrier owner target).cell? = heap.cell? from
          funext (cell?_congr (heap.writeBarrier_slots owner target))]
        exact hd.past
    | collectMinor order roots =>
        exact hd.consistent.cells_collectMinorBy order roots (fun _ _ hlive hp => hp.release hlimit hlive) hd.past
    | collectMajor order roots =>
        exact hd.consistent.cells_collectMajorBy order roots (fun _ _ hlive hp => hp.release hlimit hlive) hd.past
  · cases op with
    | allocate type typeName keys =>
        exact List.nodup_cons.2 ⟨hd.allocated_not_mem type typeName keys, hd.distinct⟩
    | _ => exact hd.distinct

end Dated

namespace Evolves

variable {issued issued' : List Handle} {heap heap' : Heap} (he : Evolves issued heap issued' heap')

include he

theorem issued_suffix : issued <:+ issued' := by
  induction he with
  | refl => exact List.suffix_rfl
  | step op _ ih => exact ih.trans (List.suffix_append _ _)

theorem dated (hd : Dated issued heap) (hlimit : issued'.length < issueLimit) : Dated issued' heap' := by
  induction he with
  | refl => exact hd
  | step op _ ih =>
      have hbefore := Nat.lt_of_le_of_lt (List.sublist_append_right _ _).length_le hlimit
      exact (ih hbefore).step op hbefore

/-- No handle takes a step back in its life. -/
theorem phase_le (hd : Dated issued heap) (hlimit : issued'.length < issueLimit) {h : Handle} (hmem : h ∈ issued) :
    phase (heap.generation? h) ≤ phase (heap'.generation? h) := by
  induction he with
  | refl => exact Nat.le_refl _
  | step op he ih =>
      have hbefore := Nat.lt_of_le_of_lt (List.sublist_append_right _ _).length_le hlimit
      have hd' := he.dated hd hbefore
      have hmoves := hd'.consistent.moves op (hd'.not_mem_issues op (he.issued_suffix.mem hmem))
      exact (ih hbefore).trans hmoves.phase_le

end Evolves

/-- What is left to do with a handle whose object is gone: every access fails and names the handle, and a store or the
barrier changes nothing, also not the object that is in the slot now. -/
structure Gone (heap : Heap) (h : Handle) : Prop where
  get? : heap.get? h = none
  object : heap.object h = .error (.danglingReference h)
  readField : ∀ key, heap.readField h key = .error (.danglingReference h)
  writeField : ∀ key value, heap.writeField h key value = .error (.danglingReference h)
  stored : ∀ key value, HeapOperation.apply heap (.writeField h key value) = heap
  barred : ∀ other, heap.writeBarrier h other = heap ∧ heap.writeBarrier other h = heap

theorem gone_of_generation? {heap : Heap} {h : Handle} (hgone : heap.generation? h = none) : heap.Gone h := by
  have hget : heap.get? h = none := by simpa [generation?] using hgone
  have hobject : heap.object h = .error (.danglingReference h) := by simp [object, hget]
  have hwrite : ∀ key value, heap.writeField h key value = .error (.danglingReference h) := by
    intro key value
    simp [writeField, hobject, bind, Except.bind]
  refine ⟨hget, hobject, fun key => ?_, hwrite, fun key value => ?_, fun other => ?_⟩
  · simp [readField, hobject, bind, Except.bind]
  · simp [HeapOperation.apply, hwrite]
  · simp [writeBarrier, hgone]

/-- **The life of a handle.** Take any operations on an empty heap, and any further ones, that make fewer than 2^32
objects. The handles issued are distinct, and the next one is new and young; its slot is the one emptied last or, if
none is empty, the next one, where each operation leaves the empty slots in the order in which they were emptied. An
operation moves an issued handle only as `Moves` allows, so that no handle takes a step back; and a handle whose object
is gone is of no use ever after. -/
theorem Evolves.handle_lifecycle {issued issued' : List Handle} {heap heap' : Heap}
    (hbefore : Evolves [] .empty issued heap) (hlater : Evolves issued heap issued' heap')
    (hlimit : issued'.length < issueLimit) :
    issued.Nodup ∧
    (∀ type typeName keys,
      (heap.allocate type typeName keys).2 ∉ issued ∧
      (heap.allocate type typeName keys).2.index = heap.free.headD heap.slots.size ∧
      (heap.allocate type typeName keys).1.generation? (heap.allocate type typeName keys).2 = some .young) ∧
    (∀ op : HeapOperation,
      (op.apply heap).free =
        (((op.swept heap).filter fun h => !(op.apply heap).contains h).map Handle.index).reverse ++
          heap.free.drop (op.issues heap).length ∧
      ∀ h ∈ issued, op.Moves (heap.generation? h) ((op.apply heap).generation? h)) ∧
    ∀ h ∈ issued, phase (heap.generation? h) ≤ phase (heap'.generation? h) ∧
      (heap.generation? h = none → heap'.Gone h) := by
  have hd : Dated issued heap :=
    hbefore.dated dated_empty (Nat.lt_of_le_of_lt hlater.issued_suffix.length_le hlimit)
  refine ⟨hd.distinct, fun type typeName keys => ⟨hd.allocated_not_mem type typeName keys, ?_, ?_⟩,
    fun op => ⟨hd.consistent.free_apply op, fun h hmem => ?_⟩, fun h hmem => ?_⟩
  · exact heap.allocate_index type typeName keys
  · rw [generation?_allocate type typeName keys hd.consistent.free.slotsEmpty, if_pos rfl]
  · exact hd.consistent.moves op (hd.not_mem_issues op hmem)
  · have hforward := hlater.phase_le hd hlimit hmem
    refine ⟨hforward, fun hgone => gone_of_generation? (phase_eq_two ?_)⟩
    rw [hgone] at hforward
    exact hforward

/-- An object is reclaimed and its slot is used again: the handle of the first object stays without use. -/
theorem Evolves.handle_lifecycle_recycled : ∃ issued heap, Evolves [] .empty issued heap ∧
    issued = [⟨0, 1⟩, ⟨0, 0⟩] ∧ heap.contains ⟨0, 1⟩ = true ∧ heap.Gone ⟨0, 0⟩ := by
  have start : Evolves [] .empty [] .empty := .refl
  have made := start.step (.allocate (.ofRow .typeDef 1) "Node" ["next"])
  have emptied := made.step (.collectMajor .stored [])
  have again := emptied.step (.allocate (.ofRow .typeDef 1) "Node" ["next"])
  have hgone := ((emptied.handle_lifecycle (.step (.allocate (.ofRow .typeDef 1) "Node" ["next"]) .refl)
    (by decide_cbv)).2.2.2 ⟨0, 0⟩ (by decide_cbv)).2 (by decide_cbv)
  exact ⟨_, _, again, by decide_cbv, by decide_cbv, hgone⟩

end Heap
end ManagedCode
