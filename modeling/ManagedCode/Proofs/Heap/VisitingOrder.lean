import ManagedCode.Proofs.Heap.Relocation

/-! The order in which collections visit objects and fields decides which slot is emptied last, hence which slot a later
object gets, and nothing else. Two runs of the same operations with different orders are compared here: after each
operation one heap is the other relocated, where each handle has become the one that the other run issued in its
place. -/

namespace ManagedCode

attribute [ext] HeapStats

namespace Heap

theorem mem_remembered_store {heap : Heap} {owner h : Handle} {key : String} {value : Value} :
    h ∈ (heap.store owner key value).remembered ↔ h ∈ heap.remembered ∨ (h = owner ∧ ∃ target,
      value.heapRef? = some target ∧ heap.generation? owner = some .old ∧ heap.generation? target = some .young) := by
  have hgen : ∀ a, (heap.modify owner fun o => o.setField key value).generation? a = heap.generation? a :=
    generation?_modify (f := fun o => o.setField key value) (fun _ => rfl) owner
  unfold store
  cases value.heapRef? with
  | none => simp
  | some target => simp [mem_remembered_writeBarrier, hgen]

/-- What is remembered is live, and a new handle was not. -/
theorem Consistent.allocated_not_remembered {heap : Heap} (hc : heap.Consistent) (type : Token) (typeName : String)
    (keys : List String) : (heap.allocate type typeName keys).2 ∉ heap.remembered := by
  intro hmem
  have hlive := hc.contains_of_mem_remembered hmem
  rw [heap.not_contains_allocated type typeName keys hc.free.slotsEmpty] at hlive
  cases hlive

theorem Consistent.mem_remembered_collectMajorBy {heap : Heap} (hc : heap.Consistent) {order : Traversal}
    {roots : List Value} {h : Handle} : h ∈ (heap.collectMajorBy order roots).remembered ↔
      h ∈ heap.remembered ∧ (heap.collectMajorBy order roots).generation? h = some .old := by
  have hold := congrArg Heap.old (hc.collectMajorBy_eq order roots)
  dsimp only at hold
  rw [← (hc.collectMajorBy order roots).mem_old, hold, hc.collectMajorBy_eq, List.mem_filter, List.contains_iff_mem]

/-! ### Counters -/

/-- How often a heap was collected, and how many objects grew old beyond those that are old now. -/
def ledger (heap : Heap) : Nat × Nat × Int :=
  (heap.stats.minorCollections, heap.stats.majorCollections, heap.stats.promoted - heap.old.length)

theorem ledger_release (heap : Heap) (h : Handle) : (heap.release h).ledger = heap.ledger := by
  obtain ⟨_, _, _, hrelease⟩ := heap.release_cases h
  rw [hrelease]
  rfl

theorem ledger_settle (heap : Heap) (h : Handle) : (heap.settle h).ledger = heap.ledger := by
  unfold settle
  split
  · simp [ledger, promote]
  · exact ledger_release heap h

theorem ledger_sweepStep (f : Object → Object) (heap : Heap) (h : Handle) :
    (heap.sweepStep f h).ledger = heap.ledger := by
  unfold sweepStep
  split
  · rfl
  · exact ledger_release heap h

theorem ledger_mark {order : Traversal} {youngOnly : Bool} {heap : Heap} {work : List Handle} :
    (heap.mark order youngOnly work).ledger = heap.ledger := by
  rw [ledger, ledger, mark_stats, mark_old]

theorem ledger_collectMinorBy (order : Traversal) (heap : Heap) (roots : List Value) :
    (heap.collectMinorBy order roots).ledger = (heap.ledger.1 + 1, heap.ledger.2) := by
  have hswept : (heap.minorSwept order roots).ledger = heap.ledger :=
    (foldl_step_eq ledger ledger_settle _ _).trans ledger_mark
  rw [collectMinorBy_eq, ← hswept]
  rfl

theorem Consistent.stats_collectMajorBy {heap : Heap} (hc : heap.Consistent) (order : Traversal) (roots : List Value) :
    (heap.collectMajorBy order roots).stats.minorCollections = heap.stats.minorCollections ∧
      (heap.collectMajorBy order roots).stats.majorCollections = heap.stats.majorCollections + 1 ∧
      (heap.collectMajorBy order roots).stats.promoted = heap.stats.promoted := by
  have hledger : (heap.majorSwept order roots).ledger = heap.ledger :=
    (foldl_step_eq ledger (ledger_sweepStep _) _ _).trans ledger_mark
  have hold : (heap.majorSwept order roots).old = heap.old :=
    (foldl_step_eq Heap.old (sweepStep_old _) _ _).trans mark_old
  simp only [ledger, hold, Prod.mk.injEq] at hledger
  obtain ⟨hminor, hmajor, hpromoted⟩ := hledger
  rw [hc.collectMajorBy_eq]
  exact ⟨hminor, congrArg (· + 1) hmajor, by dsimp only; omega⟩

/-! ### Operations on relocated heaps -/

namespace Relocates

variable {f : Handle → Handle} {issued issued' : List Handle} {heap heap' : Heap}
  (hr : Relocates f issued heap issued' heap')

include hr

/-- The renaming may be changed where it is not used. -/
theorem congr {g : Handle → Handle} (hsame : ∀ h ∈ issued, g h = f h) : Relocates g issued heap issued' heap' where
  left := hr.left
  right := hr.right
  handles := by
    rw [hr.handles]
    exact List.map_congr_left fun h hh => (hsame h hh).symm
  objects h hh := by
    rw [hsame h hh, hr.objects h hh]
    refine Option.map_congr fun o hget => Object.rename_congr fun c hc => ?_
    exact (hsame c (hr.left.refers h c ⟨o, hget, hc⟩)).symm
  remembered h hh := by
    rw [hsame h hh]
    exact hr.remembered h hh

theorem allocate (type : Token) (typeName : String) (keys : List String) {g : Handle → Handle}
    (hnew : g (heap.allocate type typeName keys).2 = (heap'.allocate type typeName keys).2)
    (hsame : ∀ h ∈ issued, g h = f h)
    (hleft : Recorded ((heap.allocate type typeName keys).2 :: issued) (heap.allocate type typeName keys).1)
    (hright : Recorded ((heap'.allocate type typeName keys).2 :: issued') (heap'.allocate type typeName keys).1) :
    Relocates g ((heap.allocate type typeName keys).2 :: issued) (heap.allocate type typeName keys).1
      ((heap'.allocate type typeName keys).2 :: issued') (heap'.allocate type typeName keys).1 := by
  have hr := hr.congr hsame
  have hfree := hr.left.consistent.free.slotsEmpty
  have hfree' := hr.right.consistent.free.slotsEmpty
  have hother : ∀ h ∈ issued, h ≠ (heap.allocate type typeName keys).2 :=
    fun h hh e => (List.nodup_cons.1 hleft.distinct).1 (e ▸ hh)
  have hother' : ∀ h ∈ issued, g h ≠ (heap'.allocate type typeName keys).2 :=
    fun h hh e => (List.nodup_cons.1 hright.distinct).1 (e ▸ hr.mem_right hh)
  refine ⟨hleft, hright, ?_, fun h hh => ?_, fun h hh => ?_⟩
  · rw [List.map_cons, hnew, ← hr.handles]
  · rw [get?_allocate heap' type typeName keys hfree', get?_allocate heap type typeName keys hfree]
    rcases List.mem_cons.1 hh with rfl | hh
    · rw [if_pos hnew, if_pos rfl, Option.map_some, blankObject_rename]
    · rw [if_neg (hother' h hh), if_neg (hother h hh)]
      exact hr.objects h hh
  · rw [allocate_remembered, allocate_remembered]
    rcases List.mem_cons.1 hh with rfl | hh
    · rw [hnew]
      exact iff_of_false (hr.right.consistent.allocated_not_remembered type typeName keys)
        (hr.left.consistent.allocated_not_remembered type typeName keys)
    · exact hr.remembered h hh

theorem writeBarrier {owner target : Handle} (howner : owner ∈ issued) (htarget : target ∈ issued)
    (hleft : Recorded issued (heap.writeBarrier owner target))
    (hright : Recorded issued' (heap'.writeBarrier (f owner) (f target))) :
    Relocates f issued (heap.writeBarrier owner target) issued' (heap'.writeBarrier (f owner) (f target)) := by
  refine ⟨hleft, hright, hr.handles, fun h hh => ?_, fun h hh => ?_⟩
  · rw [get?_congr (heap'.writeBarrier_slots _ _), get?_congr (heap.writeBarrier_slots _ _)]
    exact hr.objects h hh
  · rw [mem_remembered_writeBarrier, mem_remembered_writeBarrier, hr.remembered h hh, hr.generation? howner,
      hr.generation? htarget]
    have hinj : f h = f owner ↔ h = owner := ⟨hr.injective hh howner, congrArg f⟩
    rw [hinj]

theorem store {owner : Handle} (howner : owner ∈ issued) (key : String) {value : Value}
    (hvalue : ∀ c, value.heapRef? = some c → c ∈ issued) (hleft : Recorded issued (heap.store owner key value))
    (hright : Recorded issued' (heap'.store (f owner) key (value.rename f))) :
    Relocates f issued (heap.store owner key value) issued' (heap'.store (f owner) key (value.rename f)) := by
  have hinj : ∀ h ∈ issued, f h = f owner ↔ h = owner := fun h hh => ⟨hr.injective hh howner, congrArg f⟩
  refine ⟨hleft, hright, hr.handles, fun h hh => ?_, fun h hh => ?_⟩
  · rw [get?_store, get?_store, hr.objects h hh]
    simp only [hinj h hh]
    split
    · rw [Option.map_map, Option.map_map]
      congr 1
      funext o
      exact o.setField_rename key value
    · rfl
  · have htargets : (∃ target, (value.rename f).heapRef? = some target ∧ heap'.generation? (f owner) = some .old ∧
        heap'.generation? target = some .young) ↔ ∃ target, value.heapRef? = some target ∧
          heap.generation? owner = some .old ∧ heap.generation? target = some .young := by
      rw [Value.heapRef?_rename, hr.generation? howner]
      cases href : value.heapRef? with
      | none => simp
      | some c => simp [hr.generation? (hvalue c href)]
    rw [mem_remembered_store, mem_remembered_store, hr.remembered h hh, hinj h hh, htargets]

theorem writeField {owner : Handle} (howner : owner ∈ issued) (key : String) {value : Value}
    (hvalue : ∀ c, value.heapRef? = some c → c ∈ issued)
    (hleft : Recorded issued (HeapOperation.apply heap (.writeField owner key value)))
    (hright : Recorded issued' (HeapOperation.apply heap' (.writeField (f owner) key (value.rename f)))) :
    Relocates f issued (HeapOperation.apply heap (.writeField owner key value)) issued'
      (HeapOperation.apply heap' (.writeField (f owner) key (value.rename f))) := by
  have hfield : ((heap'.get? (f owner)).bind (·.field? key)).isSome =
      ((heap.get? owner).bind (·.field? key)).isSome := by
    rw [hr.objects owner howner]
    cases heap.get? owner with
    | none => rfl
    | some o =>
        change ((o.rename f).field? key).isSome = (o.field? key).isSome
        rw [Object.field?_rename, Option.isSome_map]
  rw [apply_writeField] at hleft hright ⊢
  rw [apply_writeField, hfield]
  rw [hfield] at hright
  split
  · next hsome =>
    rw [if_pos hsome] at hleft hright
    exact hr.store howner key hvalue hleft hright
  · exact hr

theorem mem_map {handles : List Handle} (hissued : ∀ h ∈ handles, h ∈ issued) {h : Handle} (hh : h ∈ issued) :
    f h ∈ handles.map f ↔ h ∈ handles := by
  rw [List.mem_map]
  constructor
  · rintro ⟨k, hk, heq⟩
    rw [← hr.injective (hissued k hk) hh heq]
    exact hk
  · intro hmem
    exact ⟨h, hmem, rfl⟩

section Collections

variable (order order' : Traversal) {roots : List Value}
  (hroots : ∀ h ∈ roots.filterMap Value.heapRef?, h ∈ issued)

include hroots

theorem mem_minorWork {h : Handle} (hh : h ∈ issued) :
    f h ∈ heap'.minorWork order' (roots.map (Value.rename f)) ↔ h ∈ heap.minorWork order roots := by
  have hchildren : f h ∈ heap'.rememberedChildren order' ↔ h ∈ heap.rememberedChildren order := by
    rw [mem_rememberedChildren, mem_rememberedChildren]
    constructor
    · rintro ⟨k, hk, href⟩
      obtain ⟨owner, howner, rfl⟩ := hr.exists_left (hr.right.consistent.contains_of_mem_remembered hk)
      obtain ⟨c, hrefers, heq⟩ := (hr.refers howner).1 href
      rw [hr.injective (hr.left.refers owner c hrefers) hh heq] at hrefers
      exact ⟨owner, (hr.remembered owner howner).1 hk, hrefers⟩
    · rintro ⟨owner, hmem, href⟩
      have howner := hr.left.listed owner (hr.left.consistent.contains_of_mem_remembered hmem)
      exact ⟨f owner, (hr.remembered owner howner).2 hmem, (hr.refers howner).2 ⟨h, href, rfl⟩⟩
  rw [minorWork, minorWork, List.mem_append, List.mem_append, filterMap_heapRef?_rename, hr.mem_map hroots hh,
    hchildren]

theorem collectMinor (hleft : Recorded issued (heap.collectMinorBy order roots))
    (hright : Recorded issued' (heap'.collectMinorBy order' (roots.map (Value.rename f)))) :
    Relocates f issued (heap.collectMinorBy order roots) issued'
      (heap'.collectMinorBy order' (roots.map (Value.rename f))) := by
  refine ⟨hleft, hright, hr.handles, fun h hh => ?_, fun h _ => ?_⟩
  · have hreach := hr.reachable true (fun h hh => hr.mem_minorWork order order' hroots hh) hh
    ext o'
    rw [hr.right.consistent.get?_collectMinorBy, hr.objects h hh, hreach]
    refine Iff.trans ?_ Option.map_eq_some_iff.symm
    simp only [hr.left.consistent.get?_collectMinorBy order roots]
    cases heap.get? h with
    | none => simp
    | some o =>
        constructor
        · rintro (⟨heq, hold⟩ | ⟨_, heq, hreach, rfl⟩)
          · obtain rfl := Option.some.inj heq
            exact ⟨o, Or.inl ⟨rfl, hold⟩, rfl⟩
          · obtain rfl := Option.some.inj heq
            exact ⟨o.aged, Or.inr ⟨o, rfl, hreach, rfl⟩, rfl⟩
        · rintro ⟨_, ⟨heq, hold⟩ | ⟨_, heq, hreach, rfl⟩, rfl⟩
          · obtain rfl := Option.some.inj heq
            exact Or.inl ⟨rfl, hold⟩
          · obtain rfl := Option.some.inj heq
            exact Or.inr ⟨_, rfl, hreach, rfl⟩
  · rw [collectMinorBy_eq, collectMinorBy_eq]
    simp

theorem collectMajor (hleft : Recorded issued (heap.collectMajorBy order roots))
    (hright : Recorded issued' (heap'.collectMajorBy order' (roots.map (Value.rename f)))) :
    Relocates f issued (heap.collectMajorBy order roots) issued'
      (heap'.collectMajorBy order' (roots.map (Value.rename f))) := by
  have hwork : ∀ h ∈ issued, f h ∈ majorWork (roots.map (Value.rename f)) ↔ h ∈ majorWork roots := by
    intro h hh
    rw [majorWork, majorWork, filterMap_heapRef?_rename, hr.mem_map hroots hh]
  have hreach := fun h hh => hr.reachable false hwork (h := h) hh
  have hobjects : ∀ h ∈ issued, (heap'.collectMajorBy order' (roots.map (Value.rename f))).get? (f h) =
      ((heap.collectMajorBy order roots).get? h).map (Object.rename f) := by
    intro h hh
    ext o'
    rw [hr.right.consistent.get?_collectMajorBy, hr.objects h hh, hreach h hh, Option.map_eq_some_iff]
    refine Iff.trans ?_ Option.map_eq_some_iff.symm
    simp only [hr.left.consistent.get?_collectMajorBy order roots]
    constructor
    · rintro ⟨⟨o, hget, rfl⟩, hreach⟩
      exact ⟨o, ⟨hget, hreach⟩, rfl⟩
    · rintro ⟨o, ⟨hget, hreach⟩, rfl⟩
      exact ⟨⟨o, hget, rfl⟩, hreach⟩
  refine ⟨hleft, hright, hr.handles, hobjects, fun h hh => ?_⟩
  have hgeneration : (heap'.collectMajorBy order' (roots.map (Value.rename f))).generation? (f h) =
      (heap.collectMajorBy order roots).generation? h := by
    rw [Heap.generation?, Heap.generation?, hobjects h hh, Option.map_map]
    rfl
  rw [hr.right.consistent.mem_remembered_collectMajorBy, hr.left.consistent.mem_remembered_collectMajorBy,
    hr.remembered h hh, hgeneration]

end Collections

/-! ### One operation in both runs -/

section Step

variable (op : HeapOperation) (order : Traversal) (hgiven : ∀ h ∈ op.handles, h ∈ issued)
  (hlimit : issued.length < issueLimit)

include hgiven hlimit

/-- **The same operation in both runs leaves one heap the other relocated**, whatever its orders are; the handles that
it issues become counterparts. -/
theorem step {g : Handle → Handle} (hsame : ∀ h ∈ issued, g h = f h)
    (hnew : (op.rename f order).issues heap' = (op.issues heap).map g) :
    Relocates g (op.issues heap ++ issued) (op.apply heap) ((op.rename f order).issues heap' ++ issued')
      ((op.rename f order).apply heap') := by
  have hgiven' : ∀ k ∈ (op.rename f order).handles, k ∈ issued' := by
    rw [HeapOperation.handles_rename, hr.handles]
    intro k hk
    obtain ⟨h, hh, rfl⟩ := List.mem_map.1 hk
    exact List.mem_map_of_mem (hgiven h hh)
  have hlimit' : issued'.length < issueLimit := by
    rw [hr.handles, List.length_map]
    exact hlimit
  have hleft := hr.left.step op hgiven hlimit
  have hright := hr.right.step (op.rename f order) hgiven' hlimit'
  cases op with
  | allocate type typeName keys =>
      exact hr.allocate type typeName keys (List.singleton_inj.1 hnew).symm hsame hleft hright
  | writeField owner key value =>
      refine (hr.writeField (hgiven owner List.mem_cons_self) key (fun c hc => ?_) hleft hright).congr hsame
      exact hgiven c (List.mem_cons_of_mem _ (by simp [hc]))
  | writeBarrier owner target =>
      have howner := hgiven owner List.mem_cons_self
      have htarget := hgiven target (List.mem_cons_of_mem _ (List.mem_singleton.2 rfl))
      exact (hr.writeBarrier howner htarget hleft hright).congr hsame
  | collectMinor order₀ roots => exact (hr.collectMinor order₀ order hgiven hleft hright).congr hsame
  | collectMajor order₀ roots => exact (hr.collectMajor order₀ order hgiven hleft hright).congr hsame

end Step

/-- The counters stay equal. Those of promoted and reclaimed objects follow from the numbers of old and of all objects
before and after the operation. -/
theorem stats_step (op : HeapOperation) (order : Traversal) (hstats : heap'.stats = heap.stats) {g : Handle → Handle}
    {next next' : List Handle} (hafter : Relocates g next (op.apply heap) next' ((op.rename f order).apply heap')) :
    ((op.rename f order).apply heap').stats = (op.apply heap).stats := by
  cases op with
  | allocate type typeName keys =>
      change (heap'.allocate type typeName keys).1.stats = (heap.allocate type typeName keys).1.stats
      rw [allocate_stats, allocate_stats, hstats]
  | writeField owner key value =>
      have hkept : ∀ (heap : Heap) owner value,
          (HeapOperation.apply heap (.writeField owner key value)).stats = heap.stats := by
        intro heap owner value
        rw [apply_writeField]
        split
        · exact store_stats owner key value
        · rfl
      exact ((hkept _ _ _).trans hstats).trans (hkept _ _ _).symm
  | writeBarrier owner target =>
      exact ((writeBarrier_stats ..).trans hstats).trans (writeBarrier_stats ..).symm
  | collectMinor order₀ roots =>
      have hledger := ledger_collectMinorBy order₀ heap roots
      have hledger' := ledger_collectMinorBy order heap' (roots.map (Value.rename f))
      have hallocated : (heap'.collectMinorBy order (roots.map (Value.rename f))).stats.allocated =
          (heap.collectMinorBy order₀ roots).stats.allocated := by
        rw [allocated_collectMinorBy, allocated_collectMinorBy, hstats]
      have hold := hr.old_length
      have hold' : (heap'.collectMinorBy order (roots.map (Value.rename f))).old.length =
          (heap.collectMinorBy order₀ roots).old.length := hafter.old_length
      simp only [ledger, Prod.mk.injEq, hstats, hold, hold'] at hledger hledger'
      apply HeapStats.ext
      · exact hallocated
      · exact hledger'.1.trans hledger.1.symm
      · exact hledger'.2.1.trans hledger.2.1.symm
      · have hpromoted := hledger'.2.2.trans hledger.2.2.symm
        change (heap'.collectMinorBy order (roots.map (Value.rename f))).stats.promoted =
          (heap.collectMinorBy order₀ roots).stats.promoted
        omega
      · exact hafter.reclaimed hallocated
  | collectMajor order₀ roots =>
      obtain ⟨hminor, hmajor, hpromoted⟩ := hr.left.consistent.stats_collectMajorBy order₀ roots
      obtain ⟨hminor', hmajor', hpromoted'⟩ :=
        hr.right.consistent.stats_collectMajorBy order (roots.map (Value.rename f))
      rw [hstats] at hminor' hmajor' hpromoted'
      have hallocated : (heap'.collectMajorBy order (roots.map (Value.rename f))).stats.allocated =
          (heap.collectMajorBy order₀ roots).stats.allocated := by
        rw [hr.left.consistent.allocated_collectMajorBy, hr.right.consistent.allocated_collectMajorBy, hstats]
      apply HeapStats.ext
      · exact hallocated
      · exact hminor'.trans hminor.symm
      · exact hmajor'.trans hmajor.symm
      · exact hpromoted'.trans hpromoted.symm
      · exact hafter.reclaimed hallocated

end Relocates

/-! ### Two runs -/

/-- The handle that the second run issued in the place of one that the first run issued. -/
def counterpart (issued issued' : List Handle) (h : Handle) : Handle :=
  ((issued.zip issued').lookup h).getD h

/-- Two runs of the same operations from an empty heap. Each operation of the second run is given the counterparts of
the handles that the first run gives it, and each collection of either run visits objects in an order of its own. The
lists are of the handles issued, the last one first. -/
inductive Parallel : List Handle → Heap → List Handle → Heap → Prop where
  | empty : Parallel [] .empty [] .empty
  | step {issued issued' : List Handle} {heap heap' : Heap} (op : HeapOperation) (order : Traversal)
      (hbefore : Parallel issued heap issued' heap') (hgiven : ∀ h ∈ op.handles, h ∈ issued) :
      Parallel (op.issues heap ++ issued) (op.apply heap)
        ((op.rename (counterpart issued issued') order).issues heap' ++ issued')
        ((op.rename (counterpart issued issued') order).apply heap')

theorem counterpart_cons (issued issued' : List Handle) (new new' h : Handle) :
    counterpart (new :: issued) (new' :: issued') h = if h = new then new' else counterpart issued issued' h := by
  unfold counterpart
  rw [List.zip_cons_cons, List.lookup_cons]
  by_cases heq : h = new
  · simp [heq]
  · rw [beq_false_of_ne heq, if_neg heq]

section Issues

variable {issued issued' : List Handle} {heap heap' : Heap} (op : HeapOperation) (order : Traversal)
  {f : Handle → Handle}

theorem issues_rename : (op.rename f order).issues heap' = (op.issues heap).map
    (counterpart (op.issues heap ++ issued) ((op.rename f order).issues heap' ++ issued')) := by
  cases op with
  | allocate type typeName keys =>
      exact congrArg (fun h => [h]) ((counterpart_cons ..).trans (if_pos rfl)).symm
  | _ => rfl

theorem Recorded.counterpart_issues (hr : Recorded issued heap) {h : Handle} (hh : h ∈ issued) :
    counterpart (op.issues heap ++ issued) ((op.rename f order).issues heap' ++ issued') h =
      counterpart issued issued' h := by
  cases op with
  | allocate type typeName keys =>
      have hne : h ≠ (heap.allocate type typeName keys).2 :=
        fun e => hr.dated.allocated_not_mem type typeName keys (e ▸ hh)
      exact (counterpart_cons ..).trans (if_neg hne)
  | _ => rfl

end Issues

theorem Parallel.relocates {issued issued' : List Handle} {heap heap' : Heap}
    (hp : Parallel issued heap issued' heap') (hlimit : issued.length < issueLimit) :
    Relocates (counterpart issued issued') issued heap issued' heap' ∧ heap'.stats = heap.stats := by
  induction hp with
  | empty =>
      refine ⟨⟨recorded_empty, recorded_empty, rfl, fun h hh => ?_, fun h hh => ?_⟩, rfl⟩ <;> cases hh
  | @step issued issued' heap heap' op order hp hgiven ih =>
      have hbefore := Nat.lt_of_le_of_lt (List.sublist_append_right _ _).length_le hlimit
      obtain ⟨hr, hstats⟩ := ih hbefore
      have hafter := hr.step op order hgiven hbefore (fun h hh => hr.left.counterpart_issues op order hh)
        (issues_rename op order)
      exact ⟨hafter, hr.stats_step op order hstats hafter⟩

/-- All that can be asked of two heaps, where the answers of the second are those of the first with its handles
replaced: what each issued handle denotes and what a field of it holds, the errors of each access, and all counts. -/
structure Corresponds (f : Handle → Handle) (issued : List Handle) (heap : Heap) (issued' : List Handle)
    (heap' : Heap) : Prop where
  handles : issued' = issued.map f
  distinct : issued.Nodup ∧ issued'.Nodup
  contains : ∀ h ∈ issued, heap'.contains (f h) = heap.contains h
  generation? : ∀ h ∈ issued, heap'.generation? (f h) = heap.generation? h
  isRemembered : ∀ h ∈ issued, heap'.isRemembered (f h) = heap.isRemembered h
  object : ∀ h ∈ issued, heap'.object (f h) = ((heap.object h).map (Object.rename f)).mapError (Error.rename f)
  readField : ∀ h ∈ issued, ∀ key,
    heap'.readField (f h) key = ((heap.readField h key).map (Value.rename f)).mapError (Error.rename f)
  writeField : ∀ h ∈ issued, ∀ key value, (heap'.writeField (f h) key (value.rename f)).map (fun _ => ()) =
    ((heap.writeField h key value).map fun _ => ()).mapError (Error.rename f)
  youngCount : heap'.young.length = heap.young.length
  oldCount : heap'.old.length = heap.old.length
  rememberedCount : heap'.remembered.length = heap.remembered.length
  stats : heap'.stats = heap.stats

theorem Relocates.corresponds {f : Handle → Handle} {issued issued' : List Handle} {heap heap' : Heap}
    (hr : Relocates f issued heap issued' heap') (hstats : heap'.stats = heap.stats) :
    Corresponds f issued heap issued' heap' := by
  have hobject : ∀ h ∈ issued,
      heap'.object (f h) = ((heap.object h).map (Object.rename f)).mapError (Error.rename f) := by
    intro h hh
    rw [Heap.object, Heap.object, hr.objects h hh]
    cases heap.get? h <;> rfl
  refine {
    handles := hr.handles
    distinct := ⟨hr.left.distinct, hr.right.distinct⟩
    contains := fun h hh => hr.contains hh
    generation? := fun h hh => hr.generation? hh
    isRemembered := fun h hh => ?_
    object := hobject
    readField := fun h hh key => ?_
    writeField := fun h hh key value => ?_
    youngCount := hr.young_length
    oldCount := hr.old_length
    rememberedCount := hr.remembered_length
    stats := hstats }
  · rw [Heap.isRemembered, Heap.isRemembered, Bool.eq_iff_iff, List.contains_iff_mem, List.contains_iff_mem]
    exact hr.remembered h hh
  · unfold Heap.readField
    rw [hobject h hh]
    cases heap.object h with
    | error e => rfl
    | ok o =>
        have htypeName : (o.rename f).typeName = o.typeName := rfl
        have hrenamed : (o.rename f).field? key = _ := Object.field?_rename o key
        cases hfield : o.field? key with
        | none =>
            rw [hfield] at hrenamed
            simp [bind, Except.bind, Except.map, Except.mapError, hfield, hrenamed, htypeName]
        | some value =>
            rw [hfield] at hrenamed
            simp [bind, Except.bind, Except.map, Except.mapError, hfield, hrenamed]
  · rw [writeField_eq, writeField_eq, hobject h hh]
    cases heap.object h with
    | error e => rfl
    | ok o =>
        simp only [Except.map, Except.mapError, Except.bind, Object.field?_rename, Option.isSome_map]
        by_cases hfield : (o.field? key).isSome = true
        · simp [hfield]
        · simp [hfield, Object.rename]

/-- **The order of visits does not matter.** Run the same operations, making fewer than 2^32 objects, with any two
choices of the orders in which collections visit handles and fields. Then the two heaps answer alike, with each handle
of one run read as the handle that the other run issued in its place. -/
theorem Parallel.visiting_order_independent {issued issued' : List Handle} {heap heap' : Heap}
    (hp : Parallel issued heap issued' heap') (hlimit : issued.length < issueLimit) :
    Corresponds (counterpart issued issued') issued heap issued' heap' := by
  obtain ⟨hr, hstats⟩ := hp.relocates hlimit
  exact hr.corresponds hstats

/-- Visits everything in the opposite of the order in which it is kept. -/
def reversed : Traversal where
  handles := List.reverse
  values _ := List.reverse
  handles_perm := List.reverse_perm
  values_perm _ := List.reverse_perm

/-- Two objects are reclaimed in one order and in the other, so that the next object gets another slot. -/
theorem Parallel.visiting_order_independent_reversed : ∃ issued heap issued' heap',
    Parallel issued heap issued' heap' ∧ issued.head? = some ⟨0, 1⟩ ∧ issued'.head? = some ⟨1, 1⟩ ∧
      Corresponds (counterpart issued issued') issued heap issued' heap' := by
  have one := Parallel.empty.step (.allocate (.ofRow .typeDef 1) "Node" ["next"]) .stored (by decide)
  have two := one.step (.allocate (.ofRow .typeDef 1) "Node" ["next"]) .stored (by decide)
  have emptied := two.step (.collectMajor .stored []) reversed (by decide)
  have three := emptied.step (.allocate (.ofRow .typeDef 1) "Node" ["next"]) .stored (by decide)
  exact ⟨_, _, _, _, three, by decide_cbv, by decide_cbv, three.visiting_order_independent (by decide_cbv)⟩

end Heap
end ManagedCode
