import ManagedCode.Proofs.Heap.Marking

/-! Sweeping: a list of handles is gone through, the marked objects are kept with a change and the others are released.
Both collections sweep, with different changes and different accounts of the survivors. What they share is stated for
any step that treats the slots in this way. -/

namespace ManagedCode

/-- An object that has survived a collection of its generation without growing older. -/
def Object.cleared (o : Object) : Object := { o with marked := false }

/-- An object that has survived a collection of the young generation. -/
def Object.aged (o : Object) : Object := { o with marked := false, generation := .old }

namespace Heap

/-- Keeps a marked object with a change and releases any other. -/
def sweepStep (f : Object → Object) (heap : Heap) (h : Handle) : Heap :=
  if heap.isMarked h then heap.modify h f else heap.release h

theorem get?_sweepStep (f : Object → Object) (heap : Heap) (h h' : Handle) :
    (heap.sweepStep f h).get? h' =
      if h' = h then if heap.isMarked h then (heap.get? h).map f else none else heap.get? h' := by
  unfold sweepStep
  by_cases hmarked : heap.isMarked h = true
  · rw [if_pos hmarked, if_pos hmarked, get?_modify]
    by_cases heq : h' = h
    · rw [if_pos heq, if_pos heq, heq]
    · rw [if_neg heq, if_neg heq]
  · rw [if_neg hmarked, if_neg hmarked, get?_release]

/-- A step that does to slots, free list and count of releases what `sweepStep` does. -/
structure Sweeps (f : Object → Object) (step : Heap → Handle → Heap) : Prop where
  slots (heap : Heap) (h : Handle) : (step heap h).slots = (heap.sweepStep f h).slots
  free (heap : Heap) (h : Handle) : (step heap h).free = (heap.sweepStep f h).free
  reclaimed (heap : Heap) (h : Handle) : (step heap h).stats.reclaimed = (heap.sweepStep f h).stats.reclaimed

theorem get?_congr {heap heap' : Heap} (hslots : heap.slots = heap'.slots) (h : Handle) :
    heap.get? h = heap'.get? h := by
  rw [get?, get?, hslots]

theorem cell?_congr {heap heap' : Heap} (hslots : heap.slots = heap'.slots) (i : Nat) :
    heap.cell? i = heap'.cell? i := by
  rw [cell?, cell?, hslots]

theorem sweeps_sweepStep (f : Object → Object) : Sweeps f (sweepStep f) :=
  ⟨fun _ _ => rfl, fun _ _ => rfl, fun _ _ => rfl⟩

theorem sweeps_settle : Sweeps Object.aged settle := by
  constructor
  all_goals
    intro heap h
    unfold settle sweepStep
    split
    · rfl
    · rfl

namespace Sweeps

variable {f : Object → Object} {step : Heap → Handle → Heap} (hs : Sweeps f step)

include hs

theorem get?_step (heap : Heap) (h h' : Handle) : (step heap h).get? h' =
    if h' = h then if heap.isMarked h then (heap.get? h).map f else none else heap.get? h' :=
  (get?_congr (hs.slots heap h) h').trans (get?_sweepStep f heap h h')

theorem get?_step_of_ne (heap : Heap) {h h' : Handle} (hne : h' ≠ h) :
    (step heap h).get? h' = heap.get? h' := by
  rw [hs.get?_step, if_neg hne]

theorem isMarked_step_of_ne (heap : Heap) {h h' : Handle} (hne : h' ≠ h) :
    (step heap h).isMarked h' = heap.isMarked h' := by
  rw [isMarked, isMarked, hs.get?_step_of_ne heap hne]

theorem contains_step_of_ne (heap : Heap) {h h' : Handle} (hne : h' ≠ h) :
    (step heap h).contains h' = heap.contains h' := by
  rw [contains, contains, hs.get?_step_of_ne heap hne]

/-- The objects after sweeping a list in which no handle occurs twice. -/
theorem get?_foldl {l : List Handle} (hnodup : l.Nodup) (heap : Heap) (h : Handle) :
    (l.foldl step heap).get? h =
      if h ∈ l then if heap.isMarked h then (heap.get? h).map f else none else heap.get? h := by
  induction l generalizing heap with
  | nil => simp
  | cons a l ih =>
      obtain ⟨ha, hnodup⟩ := List.nodup_cons.1 hnodup
      rw [List.foldl_cons, ih hnodup]
      by_cases heq : h = a
      · subst heq
        rw [if_neg ha, hs.get?_step, if_pos rfl, if_pos List.mem_cons_self]
      · rw [hs.isMarked_step_of_ne heap heq, hs.get?_step_of_ne heap heq]
        simp [heq]

/-- What every step on a live object keeps, sweeping a list of live objects keeps. -/
theorem foldl_keeps {P : Heap → Prop} (hstep : ∀ heap h, heap.contains h = true → P heap → P (step heap h))
    {l : List Handle} (hnodup : l.Nodup) {heap : Heap} (hlive : ∀ h ∈ l, heap.contains h = true)
    (h0 : P heap) : P (l.foldl step heap) := by
  induction l generalizing heap with
  | nil => exact h0
  | cons a l ih =>
      obtain ⟨ha, hnodup⟩ := List.nodup_cons.1 hnodup
      rw [List.foldl_cons]
      refine ih hnodup ?_ (hstep heap a (hlive a List.mem_cons_self) h0)
      intro h hmem
      have hne : h ≠ a := fun e => ha (e ▸ hmem)
      rw [hs.contains_step_of_ne heap hne]
      exact hlive h (List.mem_cons_of_mem _ hmem)

/-- What a release keeps of epochs and occupied slots, sweeping a list of live objects keeps. -/
theorem cells_foldl {P : (Nat → Option (UInt32 × Bool)) → Prop}
    (hrelease : ∀ (heap : Heap) h, heap.contains h = true → P heap.cell? → P (heap.release h).cell?)
    {l : List Handle} (hnodup : l.Nodup) {heap : Heap} (hlive : ∀ h ∈ l, heap.contains h = true)
    (h0 : P heap.cell?) : P (l.foldl step heap).cell? := by
  refine hs.foldl_keeps (P := fun heap => P heap.cell?) ?_ hnodup hlive h0
  intro heap h hlive hp
  have hcells : (step heap h).cell? = (heap.sweepStep f h).cell? := funext (cell?_congr (hs.slots heap h))
  rw [hcells, sweepStep]
  split
  · rw [show (heap.modify h f).cell? = heap.cell? from funext (cell?_modify heap h f)]
    exact hp
  · exact hrelease heap h hlive hp

theorem reclaimed_foldl {l : List Handle} (hnodup : l.Nodup) {heap : Heap}
    (hlive : ∀ h ∈ l, heap.contains h = true) : (l.foldl step heap).stats.reclaimed =
      heap.stats.reclaimed + l.countP fun h => !heap.isMarked h := by
  induction l generalizing heap with
  | nil => rfl
  | cons a l ih =>
      obtain ⟨ha, hnodup⟩ := List.nodup_cons.1 hnodup
      have hne : ∀ h ∈ l, h ≠ a := fun h hmem e => ha (e ▸ hmem)
      have hone : (step heap a).stats.reclaimed =
          heap.stats.reclaimed + if heap.isMarked a then 0 else 1 := by
        rw [hs.reclaimed, sweepStep]
        by_cases hmarked : heap.isMarked a = true
        · rw [if_pos hmarked, if_pos hmarked]
          rfl
        · rw [if_neg hmarked, if_neg hmarked, release_eq (hlive a List.mem_cons_self)]
      have hcount : (l.countP fun h => !(step heap a).isMarked h) = l.countP fun h => !heap.isMarked h :=
        List.countP_congr fun h hmem => by rw [hs.isMarked_step_of_ne heap (hne h hmem)]
      rw [List.foldl_cons, ih hnodup, hone, hcount, List.countP_cons]
      · by_cases hmarked : heap.isMarked a = true
        · simp [hmarked]
        · simp [hmarked]
          omega
      · intro h hmem
        rw [hs.contains_step_of_ne heap (hne h hmem)]
        exact hlive h (List.mem_cons_of_mem _ hmem)

end Sweeps

/-! ### The survivors of each generation -/

theorem sweep_eq {l : List Handle} (hnodup : l.Nodup) (heap : Heap) :
    heap.sweep l = (l.foldl (sweepStep Object.cleared) heap, l.filter heap.isMarked) := by
  suffices hkept : ∀ kept, l.foldl sweepOne (heap, kept) =
      (l.foldl (sweepStep Object.cleared) heap, kept ++ l.filter heap.isMarked) by
    exact hkept []
  induction l generalizing heap with
  | nil => simp
  | cons a l ih =>
      intro kept
      obtain ⟨ha, hnodup⟩ := List.nodup_cons.1 hnodup
      have hsame : l.filter (heap.sweepStep Object.cleared a).isMarked = l.filter heap.isMarked := by
        refine List.filter_congr fun h hmem => ?_
        exact (sweeps_sweepStep _).isMarked_step_of_ne heap fun e => ha (e ▸ hmem)
      have hone : sweepOne (heap, kept) a =
          (heap.sweepStep Object.cleared a, kept ++ if heap.isMarked a then [a] else []) := by
        unfold sweepOne sweepStep
        by_cases hmarked : heap.isMarked a = true
        · simp [hmarked]
          rfl
        · simp [hmarked]
      rw [List.foldl_cons, List.foldl_cons, hone, ih hnodup, hsame, List.filter_cons]
      by_cases hmarked : heap.isMarked a = true <;> simp [hmarked]

theorem old_foldl_settle {l : List Handle} (hnodup : l.Nodup) (heap : Heap) :
    (l.foldl settle heap).old = (l.filter heap.isMarked).reverse ++ heap.old := by
  induction l generalizing heap with
  | nil => rfl
  | cons a l ih =>
      obtain ⟨ha, hnodup⟩ := List.nodup_cons.1 hnodup
      have hsame : l.filter (heap.settle a).isMarked = l.filter heap.isMarked :=
        List.filter_congr fun h hmem => sweeps_settle.isMarked_step_of_ne heap fun e => ha (e ▸ hmem)
      have hone : (heap.settle a).old = (if heap.isMarked a then [a] else []) ++ heap.old := by
        unfold settle
        by_cases hmarked : heap.isMarked a = true
        · rw [if_pos hmarked, if_pos hmarked]
          rfl
        · rw [if_neg hmarked, if_neg hmarked, release_old]
          rfl
      rw [List.foldl_cons, ih hnodup, hsame, hone, List.filter_cons]
      by_cases hmarked : heap.isMarked a = true <;> simp [hmarked]

end Heap
end ManagedCode
