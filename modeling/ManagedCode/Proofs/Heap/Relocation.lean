import ManagedCode.Proofs.Heap.Lifecycle

/-! Heaps that differ in where their objects lie. One heap is the other relocated if each handle that was issued for the
one has a counterpart issued for the other, and objects, references and what is remembered are the same up to that.
Relocated heaps are reached through alike and count alike. -/

namespace ManagedCode

/-! ### Replacing handles -/

def Fault.rename (f : Handle → Handle) (fault : Fault) : Fault :=
  { fault with payload := fault.payload.map f }

def Value.rename (f : Handle → Handle) : Value → Value
  | .object h => .object (f h)
  | .fault identity raised => .fault identity (raised.rename f)
  | value => value

def Object.rename (f : Handle → Handle) (o : Object) : Object :=
  { o with fields := o.fields.map fun (key, value) => (key, value.rename f) }

def Error.rename (f : Handle → Handle) : Error → Error
  | .thrown raised identity => .thrown (raised.rename f) identity
  | .danglingReference h => .danglingReference (f h)
  | e => e

/-- The same operation on other handles, in which a collection visits objects in an order of its own. -/
def HeapOperation.rename (f : Handle → Handle) (order : Traversal) : HeapOperation → HeapOperation
  | .allocate type typeName keys => .allocate type typeName keys
  | .writeField owner key value => .writeField (f owner) key (value.rename f)
  | .writeBarrier owner target => .writeBarrier (f owner) (f target)
  | .collectMinor _ roots => .collectMinor order (roots.map (Value.rename f))
  | .collectMajor _ roots => .collectMajor order (roots.map (Value.rename f))

@[simp] theorem Error.rename_fieldNotPresent (f : Handle → Handle) (key typeName : String) :
    (Error.fieldNotPresent key typeName).rename f = .fieldNotPresent key typeName :=
  rfl

section Rename

variable {f g : Handle → Handle}

@[simp] theorem Value.heapRef?_rename (v : Value) : (v.rename f).heapRef? = v.heapRef?.map f := by
  cases v <;> rfl

theorem Value.rename_congr {v : Value} (hsame : ∀ h, v.heapRef? = some h → f h = g h) : v.rename f = v.rename g := by
  cases v with
  | object h => exact congrArg Value.object (hsame h rfl)
  | fault identity raised =>
      have hpayload : raised.payload.map f = raised.payload.map g := Option.map_congr fun h hh => hsame h hh
      simp only [Value.rename, Fault.rename, hpayload]
  | _ => rfl

theorem filterMap_heapRef?_rename (values : List Value) :
    (values.map (Value.rename f)).filterMap Value.heapRef? = (values.filterMap Value.heapRef?).map f := by
  rw [List.filterMap_map, List.map_filterMap]
  congr 1
  funext v
  exact v.heapRef?_rename

theorem Object.refs_rename (o : Object) : (o.rename f).refs = o.refs.map f := by
  have hvalues : (o.rename f).fields.map Prod.snd = (o.fields.map Prod.snd).map (Value.rename f) := by
    simp [Object.rename]
  rw [Object.refs, Object.refs, hvalues, filterMap_heapRef?_rename]

theorem Object.rename_congr {o : Object} (hsame : ∀ h ∈ o.refs, f h = g h) : o.rename f = o.rename g := by
  have hfields : o.fields.map (fun (key, value) => (key, value.rename f)) =
      o.fields.map fun (key, value) => (key, value.rename g) := by
    refine List.map_congr_left fun entry hentry => ?_
    have hvalue : entry.2.rename f = entry.2.rename g := Value.rename_congr fun h hh =>
      hsame h (List.mem_filterMap.2 ⟨entry.2, List.mem_map_of_mem hentry, hh⟩)
    exact congrArg (Prod.mk entry.1) hvalue
  simp only [Object.rename, hfields]

theorem Object.field?_rename (o : Object) (key : String) :
    (o.rename f).field? key = (o.field? key).map (Value.rename f) := by
  unfold Object.field? Object.rename
  dsimp only
  induction o.fields with
  | nil => rfl
  | cons entry rest ih =>
      rw [List.map_cons, List.lookup_cons, List.lookup_cons]
      cases key == entry.1 with
      | true => rfl
      | false => exact ih

theorem Object.setField_rename (o : Object) (key : String) (value : Value) :
    (o.rename f).setField key (value.rename f) = (o.setField key value).rename f := by
  simp only [Object.setField, Object.rename, List.map_map]
  congr 1
  refine List.map_congr_left fun entry _ => ?_
  simp only [Function.comp_apply]
  split <;> rfl

theorem Heap.blankObject_rename (type : Token) (typeName : String) (keys : List String) :
    (Heap.blankObject type typeName keys).rename f = Heap.blankObject type typeName keys := by
  simp [Heap.blankObject, Object.rename, Value.rename]

theorem HeapOperation.handles_rename (op : HeapOperation) (order : Traversal) :
    (op.rename f order).handles = op.handles.map f := by
  cases op with
  | allocate => rfl
  | writeField owner key value =>
      simp only [rename, handles, Value.heapRef?_rename, List.map_cons]
      cases value.heapRef? <;> rfl
  | writeBarrier => rfl
  | collectMinor order' roots => exact filterMap_heapRef?_rename roots
  | collectMajor order' roots => exact filterMap_heapRef?_rename roots

end Rename

namespace Heap

/-! ### One run -/

/-- What a history keeps, with all handles accounted for: those issued are distinct, and a live one was issued. -/
structure Recorded (issued : List Handle) (heap : Heap) : Prop extends Traced issued heap where
  distinct : issued.Nodup
  listed : ∀ h, heap.contains h = true → h ∈ issued

theorem recorded_empty : Recorded [] Heap.empty := by
  refine ⟨traced_empty, .nil, fun h hlive => ?_⟩
  rw [contains, get?_empty] at hlive
  cases hlive

/-- A handle that is live after an operation was live before or is issued by it. -/
theorem Consistent.contains_before {heap : Heap} (hc : heap.Consistent) (op : HeapOperation) {h : Handle}
    (hlive : (op.apply heap).contains h = true) : h ∈ op.issues heap ∨ heap.contains h = true := by
  by_cases hnew : h ∈ op.issues heap
  · exact Or.inl hnew
  · right
    have hforward := (hc.moves op hnew).phase_le
    cases hgen : heap.generation? h with
    | some g =>
        obtain ⟨o, hget, -⟩ := generation?_eq_some_iff.1 hgen
        exact contains_of_get? hget
    | none =>
        rw [hgen] at hforward
        have hgone : (op.apply heap).generation? h = none := phase_eq_two hforward
        rw [contains, (gone_of_generation? hgone).get?] at hlive
        cases hlive

theorem Recorded.dated {issued : List Handle} {heap : Heap} (hr : Recorded issued heap) : Dated issued heap :=
  ⟨hr.consistent, hr.past, hr.distinct⟩

theorem Recorded.step {issued : List Handle} {heap : Heap} (hr : Recorded issued heap) (op : HeapOperation)
    (hgiven : ∀ h ∈ op.handles, h ∈ issued) (hlimit : issued.length < issueLimit) :
    Recorded (op.issues heap ++ issued) (op.apply heap) := by
  refine ⟨hr.toTraced.step op hgiven hlimit, (hr.dated.step op hlimit).distinct, fun h hlive => ?_⟩
  rw [List.mem_append]
  exact (hr.consistent.contains_before op hlive).imp_right (hr.listed h)

/-! ### One heap is the other relocated -/

/-- The second heap is the first with its handles replaced: `f` takes the handles that one run issued to those that the
other issued in their place, objects to the same objects and what is remembered to what is remembered. -/
structure Relocates (f : Handle → Handle) (issued : List Handle) (heap : Heap) (issued' : List Handle) (heap' : Heap) :
    Prop where
  left : Recorded issued heap
  right : Recorded issued' heap'
  handles : issued' = issued.map f
  objects : ∀ h ∈ issued, heap'.get? (f h) = (heap.get? h).map (Object.rename f)
  remembered : ∀ h ∈ issued, f h ∈ heap'.remembered ↔ h ∈ heap.remembered

namespace Relocates

variable {f : Handle → Handle} {issued issued' : List Handle} {heap heap' : Heap}
  (hr : Relocates f issued heap issued' heap')

include hr

theorem injective {h k : Handle} (hh : h ∈ issued) (hk : k ∈ issued) (heq : f h = f k) : h = k :=
  List.inj_on_of_nodup_map (hr.handles ▸ hr.right.distinct) hh hk heq

theorem mem_right {h : Handle} (hh : h ∈ issued) : f h ∈ issued' := by
  rw [hr.handles]
  exact List.mem_map_of_mem hh

theorem exists_left {k : Handle} (hlive : heap'.contains k = true) : ∃ h ∈ issued, f h = k := by
  have hmem := hr.right.listed k hlive
  rw [hr.handles] at hmem
  exact List.mem_map.1 hmem

theorem generation? {h : Handle} (hh : h ∈ issued) : heap'.generation? (f h) = heap.generation? h := by
  rw [Heap.generation?, Heap.generation?, hr.objects h hh, Option.map_map]
  rfl

theorem contains {h : Handle} (hh : h ∈ issued) : heap'.contains (f h) = heap.contains h := by
  rw [Heap.contains, Heap.contains, hr.objects h hh, Option.isSome_map]

theorem refers {h k : Handle} (hh : h ∈ issued) : heap'.Refers (f h) k ↔ ∃ c, heap.Refers h c ∧ f c = k := by
  unfold Refers
  rw [hr.objects h hh]
  cases heap.get? h with
  | none => simp
  | some o => simp [Object.refs_rename]

theorem passes {youngOnly : Bool} {h : Handle} (hh : h ∈ issued) :
    heap'.Passes youngOnly (f h) ↔ heap.Passes youngOnly h := by
  unfold Passes
  rw [hr.objects h hh]
  cases heap.get? h with
  | none => simp
  | some o => simp [Object.rename]

theorem mem_of_passes {youngOnly : Bool} {h : Handle} (hpass : heap.Passes youngOnly h) : h ∈ issued := by
  obtain ⟨o, hget, -⟩ := hpass
  exact hr.left.listed h (contains_of_get? hget)

/-- Marking reaches the same objects in both heaps, if it starts at the same ones. -/
theorem reachable (youngOnly : Bool) {work work' : List Handle} (hwork : ∀ h ∈ issued, (f h ∈ work' ↔ h ∈ work))
    {h : Handle} (hh : h ∈ issued) : heap'.Reachable youngOnly work' (f h) ↔ heap.Reachable youngOnly work h := by
  constructor
  · -- What is reached in the second heap is the image of something reached in the first.
    have himage : ∀ k, heap'.Reachable youngOnly work' k →
        ∃ h ∈ issued, f h = k ∧ heap.Reachable youngOnly work h := by
      intro k hreach
      induction hreach with
      | start hmem hpass =>
          obtain ⟨o, hget, -⟩ := id hpass
          obtain ⟨h, hh, rfl⟩ := hr.exists_left (contains_of_get? hget)
          exact ⟨h, hh, rfl, .start ((hwork h hh).1 hmem) ((hr.passes hh).1 hpass)⟩
      | field _ href hpass ih =>
          obtain ⟨h, hh, rfl, hreach⟩ := ih
          obtain ⟨c, hrefers, rfl⟩ := (hr.refers hh).1 href
          have hc := hr.left.refers h c hrefers
          exact ⟨c, hc, rfl, hreach.field hrefers ((hr.passes hc).1 hpass)⟩
    intro hreach
    obtain ⟨h₁, hh₁, heq, hreach⟩ := himage (f h) hreach
    rw [← hr.injective hh₁ hh heq]
    exact hreach
  · intro hreach
    induction hreach with
    | start hmem hpass => exact .start ((hwork _ hh).2 hmem) ((hr.passes hh).2 hpass)
    | field hreach href hpass ih =>
        have hmem := hr.mem_of_passes hreach.passes
        exact (ih hmem).field ((hr.refers hmem).2 ⟨_, href, rfl⟩) ((hr.passes hh).2 hpass)

/-- Lists of handles that correspond are of one length. -/
theorem length_eq {handles handles' : List Handle} (hnodup : handles.Nodup) (hnodup' : handles'.Nodup)
    (hlive : ∀ h ∈ handles, heap.contains h = true) (hlive' : ∀ k ∈ handles', heap'.contains k = true)
    (hmem : ∀ h ∈ issued, f h ∈ handles' ↔ h ∈ handles) : handles'.length = handles.length := by
  have hissued : ∀ h ∈ handles, h ∈ issued := fun h hh => hr.left.listed h (hlive h hh)
  have himage : (handles.map f).Nodup :=
    hnodup.map_on fun h hh k hk heq => hr.injective (hissued h hh) (hissued k hk) heq
  have hperm : handles'.Perm (handles.map f) := by
    refine (List.perm_ext_iff_of_nodup hnodup' himage).2 fun k => ?_
    rw [List.mem_map]
    constructor
    · intro hk
      obtain ⟨h, hh, rfl⟩ := hr.exists_left (hlive' k hk)
      exact ⟨h, (hmem h hh).1 hk, rfl⟩
    · rintro ⟨h, hh, rfl⟩
      exact (hmem h (hissued h hh)).2 hh
  rw [hperm.length_eq, List.length_map]

theorem young_length : heap'.young.length = heap.young.length := by
  have hc := hr.left.consistent
  have hc' := hr.right.consistent
  refine hr.length_eq hc.young_nodup hc'.young_nodup (fun h hh => (hc.contains_iff_mem h).2 (Or.inl hh))
    (fun k hk => (hc'.contains_iff_mem k).2 (Or.inl hk)) fun h hh => ?_
  rw [hc.mem_young, hc'.mem_young, hr.generation? hh]

theorem old_length : heap'.old.length = heap.old.length := by
  have hc := hr.left.consistent
  have hc' := hr.right.consistent
  refine hr.length_eq hc.old_nodup hc'.old_nodup (fun h hh => (hc.contains_iff_mem h).2 (Or.inr hh))
    (fun k hk => (hc'.contains_iff_mem k).2 (Or.inr hk)) fun h hh => ?_
  rw [hc.mem_old, hc'.mem_old, hr.generation? hh]

theorem remembered_length : heap'.remembered.length = heap.remembered.length := by
  have hc := hr.left.consistent
  have hc' := hr.right.consistent
  exact hr.length_eq hc.remembered_nodup hc'.remembered_nodup
    (fun _ hh => hc.contains_of_mem_remembered hh) (fun _ hk => hc'.contains_of_mem_remembered hk) hr.remembered

/-- The number of objects reclaimed follows from the numbers of those made and of those there are. -/
theorem reclaimed (hallocated : heap'.stats.allocated = heap.stats.allocated) :
    heap'.stats.reclaimed = heap.stats.reclaimed := by
  have haccounted := hr.left.consistent.accounted
  have haccounted' := hr.right.consistent.accounted
  rw [objectCount] at haccounted haccounted'
  rw [hr.young_length, hr.old_length] at haccounted'
  omega

end Relocates
end Heap
end ManagedCode
