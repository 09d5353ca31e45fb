import ManagedCode.Proofs.Heap.Consistency

/-! What the two collections do to a consistent heap. A minor collection keeps the old objects and the young ones that
it can reach from the roots and the remembered objects; these become old. A major collection keeps what can be reached
from the roots. Both leave the heap consistent, and both keep what a survivor refers to (`Collected`). -/

namespace ManagedCode
namespace Heap

theorem FreeListExact.congr {heap heap' : Heap} (hf : heap.FreeListExact)
    (hcells : ∀ i, heap'.cell? i = heap.cell? i) (hfree : heap'.free = heap.free) : heap'.FreeListExact := by
  refine ⟨hfree ▸ hf.nodup, fun i => ?_⟩
  rw [hfree, hcells]
  exact hf.mem_iff i

theorem Sweeps.freeListExact {f : Object → Object} {step : Heap → Handle → Heap} (hs : Sweeps f step)
    {heap : Heap} {h : Handle} (hlive : heap.contains h = true) (hf : heap.FreeListExact) :
    (step heap h).FreeListExact := by
  refine FreeListExact.congr ?_ (cell?_congr (hs.slots heap h)) (hs.free heap h)
  unfold sweepStep
  split
  · exact hf.modify h f
  · exact hf.release hlive

theorem length_eq_countP_add_countP_not {α : Type} (p : α → Bool) (l : List α) :
    l.length = l.countP p + l.countP fun a => !p a := by
  simpa using List.length_eq_countP_add_countP p

/-- Sweeping leaves alone every part of a heap that its single steps leave alone. -/
theorem foldl_step_eq {α : Type} {step : Heap → Handle → Heap} (g : Heap → α)
    (hg : ∀ heap h, g (step heap h) = g heap) (l : List Handle) (heap : Heap) : g (l.foldl step heap) = g heap := by
  induction l generalizing heap with
  | nil => rfl
  | cons a l ih => rw [List.foldl_cons, ih, hg]

theorem marked_eq_false {heap : Heap} (hclear : ∀ h, heap.isMarked h = false) {h : Handle} {o : Object}
    (hget : heap.get? h = some o) : o.marked = false := by
  have hunmarked := hclear h
  rw [isMarked, hget] at hunmarked
  exact hunmarked

/-- An object without its mark, as marking leaves it, is the object in a heap without marks. -/
theorem get?_mark_of_unmarked {heap : Heap} {order : Traversal} {youngOnly : Bool} {work : List Handle}
    (hclear : ∀ h, heap.isMarked h = false) {h : Handle}
    (hh : (heap.mark order youngOnly work).isMarked h = false) :
    (heap.mark order youngOnly work).get? h = heap.get? h := by
  rw [get?_mark, hh]
  cases hget : heap.get? h with
  | none => rfl
  | some o =>
      change some { o with marked := false } = some o
      rw [← marked_eq_false hclear hget]

/-! ### Minor collections -/

/-- Where a minor collection starts marking: at the roots and at what the remembered objects refer to. -/
def minorWork (order : Traversal) (heap : Heap) (roots : List Value) : List Handle :=
  roots.filterMap Value.heapRef? ++ heap.rememberedChildren order

/-- The heap in which a minor collection goes through the young objects. -/
def minorMarked (order : Traversal) (heap : Heap) (roots : List Value) : Heap :=
  { heap.mark order true (heap.minorWork order roots) with young := [] }

/-- The heap after a minor collection has gone through the young objects. -/
def minorSwept (order : Traversal) (heap : Heap) (roots : List Value) : Heap :=
  (order.handles heap.young).foldl settle (heap.minorMarked order roots)

theorem collectMinorBy_eq (order : Traversal) (heap : Heap) (roots : List Value) :
    heap.collectMinorBy order roots =
      { heap.minorSwept order roots with
        remembered := []
        stats := { (heap.minorSwept order roots).stats with
          minorCollections := (heap.minorSwept order roots).stats.minorCollections + 1 } } := by
  have hyoung : (heap.mark order true (heap.minorWork order roots)).young = heap.young := mark_young
  unfold collectMinorBy minorSwept minorMarked
  rw [← hyoung]
  rfl

section Minor

variable {heap : Heap} (order : Traversal) (roots : List Value)

theorem mem_rememberedChildren {c : Handle} :
    c ∈ heap.rememberedChildren order ↔ ∃ h ∈ heap.remembered, heap.Refers h c := by
  rw [rememberedChildren, List.mem_flatMap]
  constructor
  · rintro ⟨h, hmem, hc⟩
    refine ⟨h, (order.handles_perm _).mem_iff.1 hmem, ?_⟩
    cases hget : heap.get? h with
    | none => simp [hget] at hc
    | some o =>
        rw [hget] at hc
        exact ⟨o, hget, Object.mem_children.1 hc⟩
  · rintro ⟨h, hmem, o, hget, hc⟩
    refine ⟨h, (order.handles_perm _).mem_iff.2 hmem, ?_⟩
    rw [hget]
    exact Object.mem_children.2 hc

theorem settle_young (heap : Heap) (h : Handle) : (heap.settle h).young = heap.young := by
  unfold settle
  split
  · rfl
  · exact release_young heap h

theorem settle_allocated (heap : Heap) (h : Handle) :
    (heap.settle h).stats.allocated = heap.stats.allocated := by
  unfold settle
  split
  · rfl
  · exact release_allocated heap h

theorem young_collectMinorBy : (heap.collectMinorBy order roots).young = [] := by
  rw [collectMinorBy_eq]
  exact foldl_step_eq Heap.young settle_young _ _

theorem allocated_collectMinorBy :
    (heap.collectMinorBy order roots).stats.allocated = heap.stats.allocated := by
  rw [collectMinorBy_eq]
  calc
    (heap.minorSwept order roots).stats.allocated = (heap.minorMarked order roots).stats.allocated :=
      foldl_step_eq (fun heap => heap.stats.allocated) settle_allocated _ _
    _ = heap.stats.allocated := congrArg HeapStats.allocated mark_stats

namespace Consistent

variable (hc : heap.Consistent)

include hc

theorem isMarked_minorMarked {h : Handle} : (heap.minorMarked order roots).isMarked h = true ↔
    heap.Reachable true (heap.minorWork order roots) h := by
  rw [← isMarked_mark_iff order hc.unmarked]
  rfl

omit hc in
theorem contains_minorMarked (h : Handle) : (heap.minorMarked order roots).contains h = heap.contains h := by
  rw [Bool.eq_iff_iff, contains_iff_cell?, contains_iff_cell?]
  exact Eq.congr_left (cell?_mark h.index)

theorem handles_young_nodup : (order.handles heap.young).Nodup :=
  (order.handles_perm _).nodup_iff.2 hc.young_nodup

theorem handles_young_live : ∀ h ∈ order.handles heap.young, (heap.minorMarked order roots).contains h = true := by
  intro h hmem
  rw [contains_minorMarked, hc.contains_iff_mem]
  exact Or.inl ((order.handles_perm _).mem_iff.1 hmem)

/-- The objects after a minor collection. -/
theorem get?_collectMinorBy {h : Handle} {o' : Object} :
    (heap.collectMinorBy order roots).get? h = some o' ↔
      (heap.get? h = some o' ∧ o'.generation = .old) ∨
      ∃ o, heap.get? h = some o ∧ heap.Reachable true (heap.minorWork order roots) h ∧ o' = o.aged := by
  have hswept : (heap.collectMinorBy order roots).get? h = (heap.minorSwept order roots).get? h := by
    rw [collectMinorBy_eq]
    rfl
  have hmem : h ∈ order.handles heap.young ↔ heap.generation? h = some .young := by
    rw [(order.handles_perm _).mem_iff, hc.mem_young]
  rw [hswept, minorSwept, sweeps_settle.get?_foldl (hc.handles_young_nodup order)]
  by_cases hyoung : heap.generation? h = some .young
  · obtain ⟨o, hget, hgen⟩ := generation?_eq_some_iff.1 hyoung
    rw [if_pos (hmem.2 hyoung)]
    by_cases hreach : heap.Reachable true (heap.minorWork order roots) h
    · rw [if_pos ((hc.isMarked_minorMarked order roots).2 hreach)]
      have hget' : (heap.minorMarked order roots).get? h = some { o with marked := true } := by
        refine (get?_mark h).trans ?_
        rw [hget, (isMarked_mark_iff order hc.unmarked).2 hreach]
        rfl
      rw [hget', hget]
      constructor
      · intro heq
        exact Or.inr ⟨o, rfl, hreach, (Option.some.inj heq).symm⟩
      · rintro (⟨heq, hold⟩ | ⟨o₁, heq, -, rfl⟩)
        · obtain rfl := Option.some.inj heq
          rw [hgen] at hold
          cases hold
        · obtain rfl := Option.some.inj heq
          rfl
    · rw [if_neg (mt (hc.isMarked_minorMarked order roots).1 hreach), hget]
      constructor
      · intro heq
        cases heq
      · rintro (⟨heq, hold⟩ | ⟨_, _, hreach', _⟩)
        · obtain rfl := Option.some.inj heq
          rw [hgen] at hold
          cases hold
        · exact absurd hreach' hreach
  · -- An object that is not young was not marked, and the sweep did not come by it.
    have hpassed : ¬heap.Reachable true (heap.minorWork order roots) h :=
      fun hreach => hyoung (passes_true_iff.1 hreach.passes)
    have hsame : (heap.minorMarked order roots).get? h = heap.get? h :=
      get?_mark_of_unmarked hc.unmarked (Bool.eq_false_iff.2
        (mt (isMarked_mark_iff order hc.unmarked).1 hpassed))
    rw [if_neg (mt hmem.1 hyoung), hsame]
    constructor
    · intro hget
      refine Or.inl ⟨hget, ?_⟩
      cases hgen : o'.generation with
      | old => rfl
      | young => exact absurd (generation?_eq_some_iff.2 ⟨o', hget, hgen⟩) hyoung
    · rintro (⟨hget, -⟩ | ⟨_, _, hreach, _⟩)
      · exact hget
      · exact absurd hreach hpassed

theorem generation?_collectMinorBy {h : Handle} {g : Generation} :
    (heap.collectMinorBy order roots).generation? h = some g ↔ g = .old ∧
      (heap.generation? h = some .old ∨ heap.Reachable true (heap.minorWork order roots) h) := by
  rw [generation?_eq_some_iff]
  constructor
  · rintro ⟨o', hget, rfl⟩
    rcases (hc.get?_collectMinorBy order roots).1 hget with ⟨hget, hold⟩ | ⟨o, -, hreach, rfl⟩
    · exact ⟨hold, Or.inl (generation?_eq_some_iff.2 ⟨o', hget, hold⟩)⟩
    · exact ⟨rfl, Or.inr hreach⟩
  · rintro ⟨rfl, hold | hreach⟩
    · obtain ⟨o, hget, hgen⟩ := generation?_eq_some_iff.1 hold
      exact ⟨o, (hc.get?_collectMinorBy order roots).2 (Or.inl ⟨hget, hgen⟩), hgen⟩
    · obtain ⟨o, hget, -⟩ := hreach.passes
      exact ⟨o.aged, (hc.get?_collectMinorBy order roots).2 (Or.inr ⟨o, hget, hreach, rfl⟩), rfl⟩

theorem old_collectMinorBy : (heap.collectMinorBy order roots).old =
    ((order.handles heap.young).filter (heap.minorMarked order roots).isMarked).reverse ++ heap.old := by
  have hmarked : (heap.minorMarked order roots).old = heap.old := mark_old
  rw [collectMinorBy_eq]
  calc
    (heap.minorSwept order roots).old =
        ((order.handles heap.young).filter (heap.minorMarked order roots).isMarked).reverse ++
          (heap.minorMarked order roots).old := old_foldl_settle (hc.handles_young_nodup order) _
    _ = _ := by rw [hmarked]

theorem reclaimed_collectMinorBy : (heap.collectMinorBy order roots).stats.reclaimed =
    heap.stats.reclaimed +
      (order.handles heap.young).countP fun h => !(heap.minorMarked order roots).isMarked h := by
  have hmarked : (heap.minorMarked order roots).stats = heap.stats := mark_stats
  rw [collectMinorBy_eq]
  calc
    (heap.minorSwept order roots).stats.reclaimed = (heap.minorMarked order roots).stats.reclaimed +
        (order.handles heap.young).countP fun h => !(heap.minorMarked order roots).isMarked h :=
      sweeps_settle.reclaimed_foldl (hc.handles_young_nodup order) (hc.handles_young_live order roots)
    _ = _ := by rw [hmarked]

/-- What a release keeps of epochs and occupied slots, a minor collection keeps. -/
theorem cells_collectMinorBy {P : (Nat → Option (UInt32 × Bool)) → Prop}
    (hrelease : ∀ (heap : Heap) h, heap.contains h = true → P heap.cell? → P (heap.release h).cell?)
    (h0 : P heap.cell?) : P (heap.collectMinorBy order roots).cell? := by
  have hcells : (heap.collectMinorBy order roots).cell? = (heap.minorSwept order roots).cell? := by
    rw [collectMinorBy_eq]
    rfl
  rw [hcells]
  refine sweeps_settle.cells_foldl hrelease (hc.handles_young_nodup order)
    (hc.handles_young_live order roots) ?_
  rw [show (heap.minorMarked order roots).cell? = heap.cell? from funext cell?_mark]
  exact h0

theorem collectMinorBy : (heap.collectMinorBy order roots).Consistent := by
  have hold := hc.old_collectMinorBy order roots
  have hyoung : (heap.collectMinorBy order roots).young = [] := young_collectMinorBy order roots
  have hremembered : (heap.collectMinorBy order roots).remembered = [] := by rw [collectMinorBy_eq]
  refine ⟨?_, ?_, ?_, fun h => ?_, fun h => ?_, ?_, fun h => ?_, ?_, ?_⟩
  · rw [hyoung]
    exact List.nodup_nil
  · rw [hold, List.nodup_append']
    refine ⟨List.nodup_reverse.2 ((hc.handles_young_nodup order).filter _), hc.old_nodup, ?_⟩
    intro h hmem hmem'
    rw [List.mem_reverse, List.mem_filter, (order.handles_perm _).mem_iff] at hmem
    exact hc.disjoint hmem.1 hmem'
  · rw [hremembered]
    exact List.nodup_nil
  · rw [hyoung, hc.generation?_collectMinorBy]
    simp
  · rw [hold, hc.generation?_collectMinorBy, List.mem_append, List.mem_reverse, List.mem_filter,
      (order.handles_perm _).mem_iff, hc.isMarked_minorMarked, hc.mem_young, hc.mem_old]
    constructor
    · rintro (⟨-, hreach⟩ | hgen)
      · exact ⟨rfl, Or.inr hreach⟩
      · exact ⟨rfl, Or.inl hgen⟩
    · rintro ⟨-, hgen | hreach⟩
      · exact Or.inr hgen
      · exact Or.inl ⟨passes_true_iff.1 hreach.passes, hreach⟩
  · rw [hremembered]
    intro h hmem
    cases hmem
  · rw [Bool.eq_false_iff, Ne, isMarked_iff]
    rintro ⟨o', hget, hmarked⟩
    rcases (hc.get?_collectMinorBy order roots).1 hget with ⟨hget, -⟩ | ⟨o, -, -, rfl⟩
    · exact Bool.eq_false_iff.1 (hc.unmarked h) (isMarked_iff.2 ⟨o', hget, hmarked⟩)
    · cases hmarked
  · rw [collectMinorBy_eq]
    have hswept : (heap.minorSwept order roots).FreeListExact :=
      sweeps_settle.foldl_keeps (fun _ _ hlive hf => sweeps_settle.freeListExact hlive hf)
        (hc.handles_young_nodup order) (hc.handles_young_live order roots) (hc.free.congr cell?_mark mark_free)
    exact hswept.congr (fun _ => rfl) rfl
  · have haccounted := hc.accounted
    have hcount := length_eq_countP_add_countP_not (heap.minorMarked order roots).isMarked
      (order.handles heap.young)
    have hlength := (order.handles_perm heap.young).length_eq
    rw [objectCount] at haccounted ⊢
    rw [allocated_collectMinorBy, hc.reclaimed_collectMinorBy, hold, hyoung, List.length_append,
      List.length_reverse, ← List.countP_eq_length_filter, List.length_nil]
    omega

end Consistent
end Minor

/-! ### Major collections -/

/-- Where a major collection starts marking. -/
def majorWork (roots : List Value) : List Handle :=
  roots.filterMap Value.heapRef?

/-- The heap in which a major collection goes through all objects. -/
def majorMarked (order : Traversal) (heap : Heap) (roots : List Value) : Heap :=
  heap.mark order false (majorWork roots)

/-- The objects in the order in which a major collection goes through them. -/
def majorHandles (order : Traversal) (heap : Heap) : List Handle :=
  order.handles heap.young ++ order.handles heap.old

/-- The heap after a major collection has gone through all objects. -/
def majorSwept (order : Traversal) (heap : Heap) (roots : List Value) : Heap :=
  (heap.majorHandles order).foldl (sweepStep Object.cleared) (heap.majorMarked order roots)

theorem sweepStep_old (f : Object → Object) (heap : Heap) (h : Handle) :
    (heap.sweepStep f h).old = heap.old := by
  unfold sweepStep
  split
  · rfl
  · exact release_old heap h

theorem sweepStep_remembered (f : Object → Object) (heap : Heap) (h : Handle) :
    (heap.sweepStep f h).remembered = heap.remembered := by
  unfold sweepStep
  split
  · rfl
  · exact release_remembered heap h

theorem sweepStep_allocated (f : Object → Object) (heap : Heap) (h : Handle) :
    (heap.sweepStep f h).stats.allocated = heap.stats.allocated := by
  unfold sweepStep
  split
  · rfl
  · exact release_allocated heap h

section Major

variable {heap : Heap} (order : Traversal) (roots : List Value)

namespace Consistent

variable (hc : heap.Consistent)

include hc

theorem handles_old_nodup : (order.handles heap.old).Nodup :=
  (order.handles_perm _).nodup_iff.2 hc.old_nodup

theorem majorHandles_nodup : (heap.majorHandles order).Nodup := by
  rw [majorHandles, List.nodup_append']
  refine ⟨hc.handles_young_nodup order, hc.handles_old_nodup order, ?_⟩
  intro h hyoung hold
  exact hc.disjoint ((order.handles_perm _).mem_iff.1 hyoung) ((order.handles_perm _).mem_iff.1 hold)

theorem mem_majorHandles (h : Handle) : h ∈ heap.majorHandles order ↔ heap.contains h = true := by
  rw [majorHandles, List.mem_append, (order.handles_perm _).mem_iff, (order.handles_perm _).mem_iff,
    hc.contains_iff_mem]

theorem majorHandles_live :
    ∀ h ∈ heap.majorHandles order, (heap.majorMarked order roots).contains h = true := by
  intro h hmem
  rw [contains_iff_cell?, majorMarked, cell?_mark, ← contains_iff_cell?]
  exact (hc.mem_majorHandles order h).1 hmem

theorem isMarked_majorMarked {h : Handle} : (heap.majorMarked order roots).isMarked h = true ↔
    heap.Reachable false (majorWork roots) h :=
  isMarked_mark_iff order hc.unmarked

theorem collectMajorBy_eq : heap.collectMajorBy order roots =
    { heap.majorSwept order roots with
      young := (order.handles heap.young).filter (heap.majorMarked order roots).isMarked
      old := (order.handles heap.old).filter (heap.majorMarked order roots).isMarked
      remembered := heap.remembered.filter
        ((order.handles heap.old).filter (heap.majorMarked order roots).isMarked).contains
      stats := { (heap.majorSwept order roots).stats with
        majorCollections := (heap.majorSwept order roots).stats.majorCollections + 1 } } := by
  have hyoung : (heap.majorMarked order roots).young = heap.young := mark_young
  -- The sweep of the young objects leaves the list of the old ones, the remembered set and the marks of the old.
  have hold : ((order.handles heap.young).foldl (sweepStep Object.cleared)
      (heap.majorMarked order roots)).old = heap.old :=
    (foldl_step_eq Heap.old (sweepStep_old _) _ _).trans mark_old
  have hremembered : (heap.majorSwept order roots).remembered = heap.remembered :=
    (foldl_step_eq Heap.remembered (sweepStep_remembered _) _ _).trans mark_remembered
  have hmarks : (order.handles heap.old).filter ((order.handles heap.young).foldl (sweepStep Object.cleared)
      (heap.majorMarked order roots)).isMarked =
        (order.handles heap.old).filter (heap.majorMarked order roots).isMarked := by
    refine List.filter_congr fun h hmem => ?_
    have hnot : h ∉ order.handles heap.young := fun hyoung =>
      hc.disjoint ((order.handles_perm _).mem_iff.1 hyoung) ((order.handles_perm _).mem_iff.1 hmem)
    rw [isMarked, isMarked, (sweeps_sweepStep _).get?_foldl (hc.handles_young_nodup order), if_neg hnot]
  have hfold : (heap.majorSwept order roots) = (order.handles heap.old).foldl (sweepStep Object.cleared)
      ((order.handles heap.young).foldl (sweepStep Object.cleared) (heap.majorMarked order roots)) := by
    rw [majorSwept, majorHandles, List.foldl_append]
  unfold collectMajorBy
  rw [← majorWork, ← majorMarked]
  dsimp only
  rw [hyoung, sweep_eq (hc.handles_young_nodup order)]
  dsimp only
  rw [hold, sweep_eq (hc.handles_old_nodup order)]
  dsimp only
  rw [hmarks, ← hfold, hremembered]

/-- The objects after a major collection. -/
theorem get?_collectMajorBy {h : Handle} {o : Object} :
    (heap.collectMajorBy order roots).get? h = some o ↔
      heap.get? h = some o ∧ heap.Reachable false (majorWork roots) h := by
  have hswept : (heap.collectMajorBy order roots).get? h = (heap.majorSwept order roots).get? h := by
    rw [hc.collectMajorBy_eq]
    rfl
  rw [hswept, majorSwept, (sweeps_sweepStep _).get?_foldl (hc.majorHandles_nodup order)]
  by_cases hreach : heap.Reachable false (majorWork roots) h
  · have hlive := passes_false_iff.1 hreach.passes
    have hmarked := (hc.isMarked_majorMarked order roots).2 hreach
    obtain ⟨o₀, hget⟩ := contains_iff.1 hlive
    have hget' : ((heap.majorMarked order roots).get? h).map Object.cleared = some o₀ := by
      rw [majorMarked, get?_mark, hget]
      change some { o₀ with marked := false } = some o₀
      rw [← marked_eq_false hc.unmarked hget]
    rw [if_pos ((hc.mem_majorHandles order h).2 hlive), if_pos hmarked, hget', hget]
    simp [hreach]
  · have hunmarked := mt (hc.isMarked_majorMarked order roots).1 hreach
    by_cases hlive : heap.contains h = true
    · rw [if_pos ((hc.mem_majorHandles order h).2 hlive), if_neg hunmarked]
      simp [hreach]
    · have hnone : heap.get? h = none := by simpa [contains] using hlive
      rw [if_neg (mt (hc.mem_majorHandles order h).1 hlive), majorMarked, get?_mark, hnone]
      simp

theorem contains_collectMajorBy {h : Handle} : (heap.collectMajorBy order roots).contains h = true ↔
    heap.Reachable false (majorWork roots) h := by
  rw [contains_iff]
  constructor
  · rintro ⟨o, hget⟩
    exact ((hc.get?_collectMajorBy order roots).1 hget).2
  · intro hreach
    obtain ⟨o, hget⟩ := contains_iff.1 (passes_false_iff.1 hreach.passes)
    exact ⟨o, (hc.get?_collectMajorBy order roots).2 ⟨hget, hreach⟩⟩

theorem generation?_collectMajorBy {h : Handle} {g : Generation} :
    (heap.collectMajorBy order roots).generation? h = some g ↔
      heap.generation? h = some g ∧ heap.Reachable false (majorWork roots) h := by
  rw [generation?_eq_some_iff, generation?_eq_some_iff]
  constructor
  · rintro ⟨o, hget, hgen⟩
    obtain ⟨hget, hreach⟩ := (hc.get?_collectMajorBy order roots).1 hget
    exact ⟨⟨o, hget, hgen⟩, hreach⟩
  · rintro ⟨⟨o, hget, hgen⟩, hreach⟩
    exact ⟨o, (hc.get?_collectMajorBy order roots).2 ⟨hget, hreach⟩, hgen⟩

theorem allocated_collectMajorBy :
    (heap.collectMajorBy order roots).stats.allocated = heap.stats.allocated := by
  rw [hc.collectMajorBy_eq]
  calc
    (heap.majorSwept order roots).stats.allocated = (heap.majorMarked order roots).stats.allocated :=
      foldl_step_eq (fun heap => heap.stats.allocated) (sweepStep_allocated _) _ _
    _ = heap.stats.allocated := congrArg HeapStats.allocated mark_stats

theorem reclaimed_collectMajorBy : (heap.collectMajorBy order roots).stats.reclaimed =
    heap.stats.reclaimed +
      (heap.majorHandles order).countP fun h => !(heap.majorMarked order roots).isMarked h := by
  have hmarked : (heap.majorMarked order roots).stats = heap.stats := mark_stats
  rw [hc.collectMajorBy_eq]
  calc
    (heap.majorSwept order roots).stats.reclaimed = (heap.majorMarked order roots).stats.reclaimed +
        (heap.majorHandles order).countP fun h => !(heap.majorMarked order roots).isMarked h :=
      (sweeps_sweepStep _).reclaimed_foldl (hc.majorHandles_nodup order) (hc.majorHandles_live order roots)
    _ = _ := by rw [hmarked]

/-- What a release keeps of epochs and occupied slots, a major collection keeps. -/
theorem cells_collectMajorBy {P : (Nat → Option (UInt32 × Bool)) → Prop}
    (hrelease : ∀ (heap : Heap) h, heap.contains h = true → P heap.cell? → P (heap.release h).cell?)
    (h0 : P heap.cell?) : P (heap.collectMajorBy order roots).cell? := by
  have hcells : (heap.collectMajorBy order roots).cell? = (heap.majorSwept order roots).cell? := by
    rw [hc.collectMajorBy_eq]
    rfl
  rw [hcells]
  refine (sweeps_sweepStep _).cells_foldl hrelease (hc.majorHandles_nodup order)
    (hc.majorHandles_live order roots) ?_
  rw [show (heap.majorMarked order roots).cell? = heap.cell? from funext cell?_mark]
  exact h0

theorem collectMajorBy : (heap.collectMajorBy order roots).Consistent := by
  have heq := hc.collectMajorBy_eq order roots
  have hyoung := congrArg Heap.young heq
  have hold := congrArg Heap.old heq
  have hremembered := congrArg Heap.remembered heq
  dsimp only at hyoung hold hremembered
  refine ⟨?_, ?_, ?_, fun h => ?_, fun h => ?_, ?_, fun h => ?_, ?_, ?_⟩
  · rw [hyoung]
    exact (hc.handles_young_nodup order).filter _
  · rw [hold]
    exact (hc.handles_old_nodup order).filter _
  · rw [hremembered]
    exact hc.remembered_nodup.filter _
  · rw [hyoung, List.mem_filter, (order.handles_perm _).mem_iff, hc.mem_young, hc.isMarked_majorMarked,
      hc.generation?_collectMajorBy]
  · rw [hold, List.mem_filter, (order.handles_perm _).mem_iff, hc.mem_old, hc.isMarked_majorMarked,
      hc.generation?_collectMajorBy]
  · rw [hremembered, hold]
    intro h hmem
    simpa using (List.mem_filter.1 hmem).2
  · rw [Bool.eq_false_iff, Ne, isMarked_iff]
    rintro ⟨o, hget, hmarked⟩
    have hget := ((hc.get?_collectMajorBy order roots).1 hget).1
    exact Bool.eq_false_iff.1 (hc.unmarked h) (isMarked_iff.2 ⟨o, hget, hmarked⟩)
  · rw [heq]
    have hswept : (heap.majorSwept order roots).FreeListExact :=
      (sweeps_sweepStep _).foldl_keeps (fun _ _ hlive hf => (sweeps_sweepStep _).freeListExact hlive hf)
        (hc.majorHandles_nodup order) (hc.majorHandles_live order roots) (hc.free.congr cell?_mark mark_free)
    exact hswept.congr (fun _ => rfl) rfl
  · have haccounted := hc.accounted
    have hcount := length_eq_countP_add_countP_not (heap.majorMarked order roots).isMarked
      (heap.majorHandles order)
    have hlength : (heap.majorHandles order).length = heap.young.length + heap.old.length := by
      rw [majorHandles, List.length_append, (order.handles_perm _).length_eq, (order.handles_perm _).length_eq]
    have hsum : (heap.majorHandles order).countP (heap.majorMarked order roots).isMarked =
        ((order.handles heap.young).filter (heap.majorMarked order roots).isMarked).length +
          ((order.handles heap.old).filter (heap.majorMarked order roots).isMarked).length := by
      rw [majorHandles, List.countP_append, List.countP_eq_length_filter, List.countP_eq_length_filter]
    rw [objectCount] at haccounted ⊢
    rw [hc.allocated_collectMajorBy, hc.reclaimed_collectMajorBy, hold, hyoung]
    omega

end Consistent
end Major

/-! ### What survives -/

/-- What a run relies on in a collection: the heap stays consistent, survivors are as they were up to their generation,
what a root refers to survives, and so does what a survivor refers to. -/
structure Collected (roots : List Value) (heap heap' : Heap) : Prop where
  consistent : heap'.Consistent
  object : ∀ h o', heap'.get? h = some o' →
    ∃ o, heap.get? h = some o ∧ o' = { o with generation := o'.generation }
  root : ∀ v ∈ roots, ∀ h, v.heapRef? = some h → heap.contains h = true → heap'.contains h = true
  reference : ∀ h c, heap'.contains h = true → heap.Remembers h → heap.Refers h c → heap.contains c = true →
    heap'.contains c = true
  remembers : ∀ h, heap.Remembers h → heap'.Remembers h
  allocated : heap'.stats.allocated = heap.stats.allocated

namespace Collected

variable {roots : List Value} {heap heap' : Heap} (hk : Collected roots heap heap')

include hk

theorem contains_before {h : Handle} (hlive : heap'.contains h = true) : heap.contains h = true := by
  obtain ⟨o', hget'⟩ := contains_iff.1 hlive
  obtain ⟨o, hget, -⟩ := hk.object h o' hget'
  exact contains_of_get? hget

theorem refers_before {h c : Handle} (href : heap'.Refers h c) : heap.Refers h c := by
  obtain ⟨o', hget', hc⟩ := href
  obtain ⟨o, hget, heq⟩ := hk.object h o' hget'
  rw [heq] at hc
  exact ⟨o, hget, hc⟩

end Collected

namespace Consistent

variable {heap : Heap} (hc : heap.Consistent)

include hc

theorem contains_iff_generation? {h : Handle} : heap.contains h = true ↔
    heap.generation? h = some .young ∨ heap.generation? h = some .old := by
  rw [hc.contains_iff_mem, hc.mem_young, hc.mem_old]

theorem contains_collectMinorBy (order : Traversal) (roots : List Value) {h : Handle} :
    (heap.collectMinorBy order roots).contains h = true ↔
      heap.generation? h = some .old ∨ heap.Reachable true (heap.minorWork order roots) h := by
  rw [(hc.collectMinorBy order roots).contains_iff_generation?, hc.generation?_collectMinorBy,
    hc.generation?_collectMinorBy]
  simp

theorem collected_collectMinorBy (order : Traversal) (roots : List Value) :
    Collected roots heap (heap.collectMinorBy order roots) where
  consistent := hc.collectMinorBy order roots
  object := by
    intro h o' hget'
    rcases (hc.get?_collectMinorBy order roots).1 hget' with ⟨hget, -⟩ | ⟨o, hget, -, rfl⟩
    · exact ⟨o', hget, rfl⟩
    · refine ⟨o, hget, ?_⟩
      rw [Object.aged, ← marked_eq_false hc.unmarked hget]
  root := by
    intro v hv h href hlive
    rw [hc.contains_collectMinorBy]
    rcases hc.contains_iff_generation?.1 hlive with hyoung | hold
    · refine Or.inr (.start ?_ (passes_true_iff.2 hyoung))
      exact List.mem_append_left _ (List.mem_filterMap.2 ⟨v, hv, href⟩)
    · exact Or.inl hold
  reference := by
    intro h c hlive hremembers href hlive'
    rw [hc.contains_collectMinorBy] at hlive ⊢
    rcases hc.contains_iff_generation?.1 hlive' with hyoung | hold
    · right
      rcases hlive with hgen | hreach
      · -- An old survivor that refers to a young object is remembered, so marking starts at what it refers to.
        have hmem := hremembers c hgen href hyoung
        refine .start ?_ (passes_true_iff.2 hyoung)
        exact List.mem_append_right _ ((mem_rememberedChildren order).2 ⟨h, hmem, href⟩)
      · exact hreach.field href (passes_true_iff.2 hyoung)
    · exact Or.inl hold
  remembers := by
    intro h _ c _ _ hyoung
    rw [hc.generation?_collectMinorBy] at hyoung
    cases hyoung.1
  allocated := allocated_collectMinorBy order roots

theorem collected_collectMajorBy (order : Traversal) (roots : List Value) :
    Collected roots heap (heap.collectMajorBy order roots) where
  consistent := hc.collectMajorBy order roots
  object := by
    intro h o' hget'
    exact ⟨o', ((hc.get?_collectMajorBy order roots).1 hget').1, rfl⟩
  root := by
    intro v hv h href hlive
    rw [hc.contains_collectMajorBy]
    exact .start (List.mem_filterMap.2 ⟨v, hv, href⟩) (passes_false_iff.2 hlive)
  reference := by
    intro h c hlive _ href hlive'
    rw [hc.contains_collectMajorBy] at hlive ⊢
    exact hlive.field href (passes_false_iff.2 hlive')
  remembers := by
    intro h hremembers c hold href hyoung
    have hmem := ((hc.collectMajorBy order roots).mem_old h).2 hold
    rw [hc.generation?_collectMajorBy] at hold hyoung
    obtain ⟨o, hget, hc'⟩ := href
    have href : heap.Refers h c := ⟨o, ((hc.get?_collectMajorBy order roots).1 hget).1, hc'⟩
    have hmem' := hremembers c hold.1 href hyoung.1
    rw [hc.collectMajorBy_eq] at hmem ⊢
    exact List.mem_filter.2 ⟨hmem', by simpa using hmem⟩
  allocated := hc.allocated_collectMajorBy order roots

end Consistent
end Heap
end ManagedCode
