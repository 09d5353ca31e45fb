import ManagedCode.Proofs.Heap.VisitingOrder

/-! What each collection keeps, said of the references in the heap alone and not of the search that finds it. A minor
collection passes young objects only and starts at the roots and at what the remembered objects refer to. It still keeps
every young object that references lead to from the roots or from any old object: the last old object on the way refers
to a young one, so it is remembered, and from there on the way leads through young objects. -/

namespace ManagedCode
namespace Heap

theorem countP_eq_ncard {l : List Handle} (hnodup : l.Nodup) (p : Handle → Bool) :
    l.countP p = {h | h ∈ l ∧ p h = true}.ncard := by
  have hset : {h | h ∈ l ∧ p h = true} = ((l.filter p).toFinset : Set Handle) := by
    ext h
    simp
  rw [hset, Set.ncard_coe_finset, List.toFinset_card_of_nodup (hnodup.filter p), List.countP_eq_length_filter]

theorem Reachable.mono {heap : Heap} {youngOnly : Bool} {work work' : List Handle} (hsub : work ⊆ work') {h : Handle}
    (hreach : heap.Reachable youngOnly work h) : heap.Reachable youngOnly work' h := by
  induction hreach with
  | start hmem hpass => exact .start (hsub hmem) hpass
  | field _ href hpass ih => exact ih.field href hpass

/-! ### Minor collections -/

/-- A heap after a minor collection, compared with the heap before it. The old objects are live, and the young ones that
references of live objects lead to from the roots or from an old object; they are as they were, and all are old. -/
structure MinorExact (roots : List Value) (heap after : Heap) : Prop where
  live : ∀ h, after.contains h = true ↔ heap.generation? h = some .old ∨
    (heap.generation? h = some .young ∧ heap.Reachable false (majorWork roots ++ heap.old) h)
  rooted : ∀ h, heap.Reachable false (majorWork roots) h → after.contains h = true
  kept : ∀ h o, heap.get? h = some o → after.contains h = true → after.get? h = some { o with generation := .old }
  young : after.young = []
  remembered : after.remembered = []
  promoted : after.stats.promoted = heap.stats.promoted +
    {h | heap.generation? h = some .young ∧ after.contains h = true}.ncard
  reclaimed : after.stats.reclaimed = heap.stats.reclaimed +
    {h | heap.generation? h = some .young ∧ after.contains h = false}.ncard

namespace Consistent

variable {heap : Heap} (hc : heap.Consistent) (order : Traversal) (roots : List Value)

include hc

theorem reachable_of_minorWork {h : Handle} (hreach : heap.Reachable true (heap.minorWork order roots) h) :
    heap.Reachable false (majorWork roots ++ heap.old) h := by
  have hlive : ∀ {c}, heap.Passes true c → heap.Passes false c := by
    rintro c ⟨o, hget, -⟩
    exact ⟨o, hget, Or.inl rfl⟩
  induction hreach with
  | start hmem hpass =>
      rcases List.mem_append.1 hmem with hroot | hchild
      · exact .start (List.mem_append_left _ hroot) (hlive hpass)
      · obtain ⟨owner, howner, href⟩ := (mem_rememberedChildren order).1 hchild
        have hstart : heap.Reachable false (majorWork roots ++ heap.old) owner :=
          .start (List.mem_append_right _ (hc.remembered_old owner howner))
            (passes_false_iff.2 (hc.contains_of_mem_remembered howner))
        exact hstart.field href (hlive hpass)
  | field _ href hpass ih => exact ih.field href (hlive hpass)

/-- Where the remembered set is complete, every way to a young object ends in a part that a minor collection follows. -/
theorem minorWork_of_reachable (hremembers : ∀ h, heap.Remembers h) {h : Handle}
    (hreach : heap.Reachable false (majorWork roots ++ heap.old) h) (hyoung : heap.generation? h = some .young) :
    heap.Reachable true (heap.minorWork order roots) h := by
  induction hreach with
  | start hmem hpass =>
      rcases List.mem_append.1 hmem with hroot | hold
      · exact .start (List.mem_append_left _ hroot) (passes_true_iff.2 hyoung)
      · rw [hc.mem_old, hyoung] at hold
        cases hold
  | @field owner c hreach href hpass ih =>
      rcases hc.contains_iff_generation?.1 (passes_false_iff.1 hreach.passes) with howner | howner
      · exact (ih howner).field href (passes_true_iff.2 hyoung)
      · -- The owner is the last old object on the way.
        have hchild : c ∈ heap.rememberedChildren order :=
          (mem_rememberedChildren order).2 ⟨owner, hremembers owner c howner href hyoung, href⟩
        exact .start (List.mem_append_right _ hchild) (passes_true_iff.2 hyoung)

theorem reachable_minorWork_iff (hremembers : ∀ h, heap.Remembers h) {h : Handle} :
    heap.Reachable true (heap.minorWork order roots) h ↔
      heap.generation? h = some .young ∧ heap.Reachable false (majorWork roots ++ heap.old) h := by
  constructor
  · intro hreach
    exact ⟨passes_true_iff.1 hreach.passes, hc.reachable_of_minorWork order roots hreach⟩
  · rintro ⟨hyoung, hreach⟩
    exact hc.minorWork_of_reachable order roots hremembers hreach hyoung

/-- A minor collection makes as many objects old as there are young survivors. -/
theorem promoted_collectMinorBy : (heap.collectMinorBy order roots).stats.promoted =
    heap.stats.promoted + heap.young.countP (heap.collectMinorBy order roots).contains := by
  have hledger := congrArg (·.2.2) (ledger_collectMinorBy order heap roots)
  have hold := congrArg List.length (hc.old_collectMinorBy order roots)
  have hsurvivors : (order.handles heap.young).countP (heap.minorMarked order roots).isMarked =
      heap.young.countP (heap.collectMinorBy order roots).contains := by
    rw [← (order.handles_perm heap.young).countP_eq]
    exact List.countP_congr fun h hmem => by rw [hc.isMarked_eq_contains_collectMinorBy order roots hmem]
  rw [List.length_append, List.length_reverse, ← List.countP_eq_length_filter, hsurvivors] at hold
  simp only [ledger] at hledger
  omega

theorem reclaimed_young_collectMinorBy : (heap.collectMinorBy order roots).stats.reclaimed =
    heap.stats.reclaimed + heap.young.countP fun h => !(heap.collectMinorBy order roots).contains h := by
  rw [hc.reclaimed_collectMinorBy, ← (order.handles_perm heap.young).countP_eq]
  congr 1
  exact List.countP_congr fun h hmem => by rw [hc.isMarked_eq_contains_collectMinorBy order roots hmem]

/-- **A minor collection is exact** on a heap whose remembered set is complete. -/
theorem minorExact (hremembers : ∀ h, heap.Remembers h) :
    MinorExact roots heap (heap.collectMinorBy order roots) where
  live h := by rw [hc.contains_collectMinorBy, hc.reachable_minorWork_iff order roots hremembers]
  rooted h hreach := by
    have hwide : heap.Reachable false (majorWork roots ++ heap.old) h := hreach.mono (List.subset_append_left _ _)
    rw [hc.contains_collectMinorBy, hc.reachable_minorWork_iff order roots hremembers]
    rcases hc.contains_iff_generation?.1 (passes_false_iff.1 hreach.passes) with hyoung | hold
    · exact Or.inr ⟨hyoung, hwide⟩
    · exact Or.inl hold
  kept h o hget hlive := by
    obtain ⟨o', hget'⟩ := contains_iff.1 hlive
    have hunmarked := marked_eq_false hc.unmarked hget
    rw [hget']
    rcases (hc.get?_collectMinorBy order roots).1 hget' with ⟨hbefore, hold⟩ | ⟨o₀, hbefore, -, rfl⟩
    · obtain rfl := Option.some.inj (hget.symm.trans hbefore)
      rw [← hold]
    · obtain rfl := Option.some.inj (hget.symm.trans hbefore)
      rw [Object.aged, ← hunmarked]
  young := young_collectMinorBy order roots
  remembered := by rw [collectMinorBy_eq]
  promoted := by
    rw [hc.promoted_collectMinorBy, countP_eq_ncard hc.young_nodup]
    simp only [hc.mem_young]
  reclaimed := by
    rw [hc.reclaimed_young_collectMinorBy, countP_eq_ncard hc.young_nodup]
    simp only [hc.mem_young, Bool.not_eq_true']

end Consistent

/-- **Exactness of the minor collection**, for every heap that comes about by operations that make fewer than 2^32
objects, whatever values are the roots and in whatever order objects are visited. -/
theorem History.minor_collection_exact {issued : List Handle} {heap : Heap} (hist : History issued heap)
    (hlimit : issued.length < issueLimit) (order : Traversal) (roots : List Value) :
    MinorExact roots heap (heap.collectMinorBy order roots) :=
  (hist.traced hlimit).consistent.minorExact order roots (hist.traced hlimit).remembers

/-- An old object refers to a young one, and that to another, which the roots do not name: they are kept, and so is the
object of a caught fault, while the last object is not. One root is stale, and one stands there twice. -/
theorem History.minor_collection_exact_chain : ∃ issued heap after, History issued heap ∧
    heap.old = [⟨0, 0⟩] ∧ heap.young = [⟨4, 0⟩, ⟨3, 0⟩, ⟨2, 0⟩, ⟨1, 0⟩] ∧
    MinorExact [.fault 7 (.ofObject ["Node"] ⟨3, 0⟩), .object ⟨1, 5⟩, .object ⟨0, 0⟩, .object ⟨0, 0⟩] heap after ∧
    after.contains ⟨2, 0⟩ = true ∧ after.contains ⟨3, 0⟩ = true ∧ after.contains ⟨4, 0⟩ = false := by
  have made := History.empty.step (.allocate (.ofRow .typeDef 1) "Node" ["next"]) (by decide)
  have aged := made.step (.collectMinor .stored [.object ⟨0, 0⟩]) (by decide_cbv)
  have second := aged.step (.allocate (.ofRow .typeDef 1) "Node" ["next"]) (by decide_cbv)
  have third := second.step (.allocate (.ofRow .typeDef 1) "Node" ["next"]) (by decide_cbv)
  have fourth := third.step (.allocate (.ofRow .typeDef 1) "Node" ["next"]) (by decide_cbv)
  have fifth := fourth.step (.allocate (.ofRow .typeDef 1) "Node" ["next"]) (by decide_cbv)
  have joined := fifth.step (.writeField ⟨0, 0⟩ "next" (.object ⟨1, 0⟩)) (by decide_cbv)
  have chained := joined.step (.writeField ⟨1, 0⟩ "next" (.object ⟨2, 0⟩)) (by decide_cbv)
  exact ⟨_, _, _, chained, by decide_cbv, by decide_cbv,
    chained.minor_collection_exact (by decide_cbv) .stored _, by decide_cbv, by decide_cbv, by decide_cbv⟩

/-! ### Major collections -/

/-- A heap after a major collection, compared with the heap before it. What references of live objects lead to from the
roots is live and as it was, and what was remembered is remembered if it is still there and old. -/
structure MajorExact (roots : List Value) (heap after : Heap) : Prop where
  live : ∀ h, after.contains h = true ↔ heap.contains h = true ∧ heap.Reachable false (majorWork roots) h
  kept : ∀ h, after.contains h = true → after.get? h = heap.get? h
  remembered : after.remembered = heap.remembered.filter fun h => after.generation? h = some .old
  reclaimed : after.stats.reclaimed = heap.stats.reclaimed +
    {h | heap.contains h = true ∧ after.contains h = false}.ncard

namespace Consistent

variable {heap : Heap} (hc : heap.Consistent) (order : Traversal) (roots : List Value)

include hc

theorem remembered_collectMajorBy : (heap.collectMajorBy order roots).remembered =
    heap.remembered.filter fun h => (heap.collectMajorBy order roots).generation? h = some .old := by
  have hold := congrArg Heap.old (hc.collectMajorBy_eq order roots)
  have hremembered := congrArg Heap.remembered (hc.collectMajorBy_eq order roots)
  dsimp only at hold hremembered
  rw [hremembered, ← hold]
  refine List.filter_congr fun h _ => ?_
  rw [Bool.eq_iff_iff, List.contains_iff_mem, (hc.collectMajorBy order roots).mem_old, decide_eq_true_iff]

theorem reclaimed_live_collectMajorBy : (heap.collectMajorBy order roots).stats.reclaimed =
    heap.stats.reclaimed +
      (heap.majorHandles order).countP fun h => !(heap.collectMajorBy order roots).contains h := by
  rw [hc.reclaimed_collectMajorBy]
  congr 1
  exact List.countP_congr fun h _ => by rw [hc.isMarked_eq_contains_collectMajorBy order roots h]

/-- **A major collection is exact.** -/
theorem majorExact : MajorExact roots heap (heap.collectMajorBy order roots) where
  live h := by
    rw [hc.contains_collectMajorBy]
    constructor
    · intro hreach
      exact ⟨passes_false_iff.1 hreach.passes, hreach⟩
    · exact And.right
  kept h hlive := by
    obtain ⟨o, hget⟩ := contains_iff.1 hlive
    rw [hget, ((hc.get?_collectMajorBy order roots).1 hget).1]
  remembered := hc.remembered_collectMajorBy order roots
  reclaimed := by
    rw [hc.reclaimed_live_collectMajorBy, countP_eq_ncard (hc.majorHandles_nodup order)]
    simp only [hc.mem_majorHandles, Bool.not_eq_true']

end Consistent

/-- **Exactness of the major collection**, for every heap that comes about by operations that make fewer than 2^32
objects, whatever the roots and the order of visits. No reference from an old object to a young one is forgotten, so a
minor collection that follows is exact as well. -/
theorem History.major_collection_exact {issued : List Handle} {heap : Heap} (hist : History issued heap)
    (hlimit : issued.length < issueLimit) (order : Traversal) (roots : List Value) :
    MajorExact roots heap (heap.collectMajorBy order roots) ∧
      ∀ nextOrder nextRoots, MinorExact nextRoots (heap.collectMajorBy order roots)
        ((heap.collectMajorBy order roots).collectMinorBy nextOrder nextRoots) := by
  have ht := hist.traced hlimit
  have hcollected := ht.consistent.collected_collectMajorBy order roots
  refine ⟨ht.consistent.majorExact order roots, fun nextOrder nextRoots => ?_⟩
  exact hcollected.consistent.minorExact nextOrder nextRoots fun h => hcollected.remembers h (ht.remembers h)

/-- Two objects that refer to each other are dropped, and an old object that refers to a young one is kept with it and
stays remembered, so that the next minor collection keeps both though nothing is a root any more. -/
theorem History.major_collection_exact_cycle : ∃ issued heap after next, History issued heap ∧
    heap.remembered = [⟨0, 0⟩] ∧ MajorExact [.object ⟨0, 0⟩] heap after ∧ MinorExact [] after next ∧
    after.contains ⟨1, 0⟩ = true ∧ after.contains ⟨2, 0⟩ = false ∧ after.contains ⟨3, 0⟩ = false ∧
    after.remembered = [⟨0, 0⟩] ∧ next.contains ⟨1, 0⟩ = true := by
  have made := History.empty.step (.allocate (.ofRow .typeDef 1) "Node" ["next"]) (by decide)
  have aged := made.step (.collectMinor .stored [.object ⟨0, 0⟩]) (by decide_cbv)
  have second := aged.step (.allocate (.ofRow .typeDef 1) "Node" ["next"]) (by decide_cbv)
  have third := second.step (.allocate (.ofRow .typeDef 1) "Node" ["next"]) (by decide_cbv)
  have fourth := third.step (.allocate (.ofRow .typeDef 1) "Node" ["next"]) (by decide_cbv)
  have joined := fourth.step (.writeField ⟨0, 0⟩ "next" (.object ⟨1, 0⟩)) (by decide_cbv)
  have there := joined.step (.writeField ⟨2, 0⟩ "next" (.object ⟨3, 0⟩)) (by decide_cbv)
  have back := there.step (.writeField ⟨3, 0⟩ "next" (.object ⟨2, 0⟩)) (by decide_cbv)
  obtain ⟨hmajor, hminor⟩ := back.major_collection_exact (by decide_cbv) .stored [.object ⟨0, 0⟩]
  exact ⟨_, _, _, _, back, by decide_cbv, hmajor, hminor .stored [], by decide_cbv, by decide_cbv, by decide_cbv,
    by decide_cbv, by decide_cbv⟩

end Heap
end ManagedCode
