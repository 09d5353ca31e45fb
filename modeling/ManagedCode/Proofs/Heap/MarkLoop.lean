import ManagedCode.Proofs.Heap.Marking
import Mathlib

/-! Marking as a loop. A round takes one handle off the work and may put the references of one object onto it, of an
object that is marked in the same round. So each round brings the number of handles in the work and of references in
unmarked objects down by one, and the loop ends whatever cycles there are. On a heap without marks it then has marked
just the objects that ways along references lead to, and it has changed nothing else. -/

namespace ManagedCode
namespace Heap

/-! ### Adding up the objects -/

/-- The sum of what the objects of the heap count for. -/
def tally (count : Object → Nat) (heap : Heap) : Nat :=
  (heap.slots.toList.map fun slot => (slot.object.map count).getD 0).sum

theorem sum_map_modify {α : Type} (g : α → Nat) (f : α → α) {l : List α} {i : Nat} {a : α} (hi : l[i]? = some a) :
    ((l.modify i f).map g).sum + g a = (l.map g).sum + g (f a) := by
  induction l generalizing i with
  | nil => simp at hi
  | cons b l ih =>
      cases i with
      | zero =>
          obtain rfl : b = a := by simpa using hi
          simp only [List.modify_zero_cons, List.map_cons, List.sum_cons]
          omega
      | succ i =>
          have hrest := ih (i := i) (by simpa using hi)
          simp only [List.modify_succ_cons, List.map_cons, List.sum_cons]
          omega

theorem tally_modify (count : Object → Nat) (f : Object → Object) {heap : Heap} {h : Handle} {o : Object}
    (hget : heap.get? h = some o) : (heap.modify h f).tally count + count o = heap.tally count + count (f o) := by
  obtain ⟨slot, hslot, hepoch, hobject⟩ := get?_eq_some_iff.1 hget
  have hsum := sum_map_modify (fun slot : Slot => (slot.object.map count).getD 0)
    (fun slot => if slot.epoch = h.epoch then { slot with object := slot.object.map f } else slot)
    (Array.getElem?_toList.trans hslot)
  simpa [tally, modify, hepoch, hobject] using hsum

/-! ### Rounds -/

/-- One round of marking. The first handle is taken off the work; if it denotes an unmarked object that may be passed,
the object is marked and what it refers to comes onto the work. -/
def markRound (order : Traversal) (youngOnly : Bool) : Heap × List Handle → Heap × List Handle
  | (heap, []) => (heap, [])
  | (heap, h :: work) =>
      match heap.get? h with
      | none => (heap, work)
      | some o =>
          if o.marked = false ∧ (youngOnly = false ∨ o.generation = .young) then
            (heap.setMarked h, o.children order h ++ work)
          else (heap, work)

/-- The number of references in unmarked objects. -/
def unmarkedReferences (heap : Heap) : Nat :=
  heap.tally fun o => if o.marked then 0 else o.refs.length

theorem length_children (order : Traversal) (h : Handle) (o : Object) :
    (o.children order h).length = o.refs.length :=
  ((order.values_perm h _).filterMap _).length_eq

theorem unmarkedReferences_setMarked {heap : Heap} {h : Handle} {o : Object} (hget : heap.get? h = some o)
    (ho : o.marked = false) : (heap.setMarked h).unmarkedReferences + o.refs.length = heap.unmarkedReferences := by
  have htally := tally_modify (fun o => if o.marked then 0 else o.refs.length) (fun o => { o with marked := true }) hget
  rw [if_neg (by simp [ho]), if_pos rfl, Nat.add_zero] at htally
  exact htally

section Rounds

variable {order : Traversal} {youngOnly : Bool} {heap : Heap} {work : List Handle} {h : Handle}

theorem markRound_skip (hskip : ∀ o, heap.get? h = some o →
    ¬(o.marked = false ∧ (youngOnly = false ∨ o.generation = .young))) :
    markRound order youngOnly (heap, h :: work) = (heap, work) := by
  cases hget : heap.get? h with
  | none => simp only [markRound, hget]
  | some o => simp only [markRound, hget, if_neg (hskip o hget)]

theorem markRound_visit {o : Object} (hget : heap.get? h = some o)
    (ho : o.marked = false ∧ (youngOnly = false ∨ o.generation = .young)) :
    markRound order youngOnly (heap, h :: work) = (heap.setMarked h, o.children order h ++ work) := by
  simp only [markRound, hget, if_pos ho]

/-- There is work for the given number of rounds and none after them, and then the heap is `after`. -/
structure EndsAfter (order : Traversal) (youngOnly : Bool) (heap : Heap) (work : List Handle) (rounds : Nat)
    (after : Heap) : Prop where
  ended : (markRound order youngOnly)^[rounds] (heap, work) = (after, [])
  underWay : ∀ n < rounds, ((markRound order youngOnly)^[n] (heap, work)).2 ≠ []

theorem EndsAfter.round {heap' after : Heap} {work' : List Handle} {rounds : Nat}
    (hround : markRound order youngOnly (heap, h :: work) = (heap', work'))
    (hends : EndsAfter order youngOnly heap' work' rounds after) :
    EndsAfter order youngOnly heap (h :: work) (rounds + 1) after where
  ended := by rw [Function.iterate_succ_apply, hround, hends.ended]
  underWay n hn := by
    cases n with
    | zero => exact List.cons_ne_nil h work
    | succ n =>
        rw [Function.iterate_succ_apply, hround]
        exact hends.underWay n (Nat.lt_of_succ_lt_succ hn)

/-- Marking is the loop, which takes a round for each handle of the work and for each reference that it comes by. -/
theorem exists_rounds (order : Traversal) (youngOnly : Bool) (heap : Heap) (work : List Handle) : ∃ rounds,
    EndsAfter order youngOnly heap work rounds (heap.mark order youngOnly work) ∧
      rounds + (heap.mark order youngOnly work).unmarkedReferences = work.length + heap.unmarkedReferences := by
  fun_induction mark order youngOnly heap work with
  | case1 heap => exact ⟨0, ⟨rfl, fun n hn => absurd hn (Nat.not_lt_zero n)⟩, rfl⟩
  | case2 heap h work hget ih =>
      obtain ⟨rounds, hends, hcount⟩ := ih
      refine ⟨rounds + 1, hends.round (markRound_skip ?_), ?_⟩
      · simp [hget]
      · rw [List.length_cons]
        omega
  | case3 heap h work o hget ho _ ih =>
      obtain ⟨rounds, hends, hcount⟩ := ih
      refine ⟨rounds + 1, hends.round (markRound_visit hget ho), ?_⟩
      have hvisited := unmarkedReferences_setMarked hget ho.1
      rw [List.length_append, length_children] at hcount
      rw [List.length_cons]
      omega
  | case4 heap h work o hget ho ih =>
      obtain ⟨rounds, hends, hcount⟩ := ih
      refine ⟨rounds + 1, hends.round (markRound_skip ?_), ?_⟩
      · intro o' hget'
        rwa [← Option.some.inj (hget.symm.trans hget')]
      · rw [List.length_cons]
        omega

end Rounds

/-! ### Ways -/

/-- A way along references: it starts in the work, each of its objects refers to the next, and all are of a kind. -/
structure Way (heap : Heap) (kind : Handle → Prop) (work way : List Handle) : Prop where
  start : ∀ first ∈ way.head?, first ∈ work
  linked : way.IsChain heap.Refers
  kind : ∀ h ∈ way, kind h

/-- What ways lead to through objects of a kind. -/
def reached (heap : Heap) (kind : Handle → Prop) (work : List Handle) : Set Handle :=
  {h | ∃ way, heap.Way kind work (way ++ [h])}

section Ways

variable {kind : Handle → Prop} {youngOnly : Bool} {heap : Heap} {work : List Handle} {h c : Handle}

theorem Way.field {way : List Handle} (hway : heap.Way kind work (way ++ [h])) (href : heap.Refers h c)
    (hkind : kind c) : heap.Way kind work (way ++ [h] ++ [c]) where
  start first hfirst := hway.start first (by simpa using hfirst)
  linked := by
    rw [List.isChain_append]
    refine ⟨hway.linked, List.isChain_singleton c, ?_⟩
    simpa using href
  kind h' hmem := by
    rcases List.mem_append.1 hmem with hmem | hmem
    · exact hway.kind h' hmem
    · rwa [List.mem_singleton.1 hmem]

theorem Reachable.mem_reached (hreach : heap.Reachable youngOnly work h) :
    h ∈ heap.reached (heap.Passes youngOnly) work := by
  induction hreach with
  | start hmem hpass =>
      refine ⟨[], ?_, List.isChain_singleton _, ?_⟩
      · simpa using hmem
      · simpa using hpass
  | field _ href hpass ih =>
      obtain ⟨way, hway⟩ := ih
      exact ⟨_, hway.field href hpass⟩

/-- A way from a reachable object leads through reachable ones. -/
theorem Reachable.along {way : List Handle} (hreach : heap.Reachable youngOnly work h)
    (hlinked : (h :: way).IsChain heap.Refers) (hpass : ∀ c ∈ way, heap.Passes youngOnly c) :
    ∀ c ∈ h :: way, heap.Reachable youngOnly work c := by
  induction way generalizing h with
  | nil =>
      intro c hc
      rwa [List.mem_singleton.1 hc]
  | cons next way ih =>
      obtain ⟨href, hlinked⟩ := List.isChain_cons_cons.1 hlinked
      obtain ⟨hnext, hway⟩ := List.forall_mem_cons.1 hpass
      intro c hc
      rcases List.mem_cons.1 hc with rfl | hc
      · exact hreach
      · exact ih (hreach.field href hnext) hlinked hway c hc

theorem reachable_iff_mem_reached :
    heap.Reachable youngOnly work h ↔ h ∈ heap.reached (heap.Passes youngOnly) work := by
  refine ⟨Reachable.mem_reached, ?_⟩
  rintro ⟨way, hstart, hlinked, hpass⟩
  have hlast : h ∈ way ++ [h] := List.mem_append_right _ List.mem_cons_self
  generalize way ++ [h] = way at hstart hlinked hpass hlast
  cases way with
  | nil => cases hlast
  | cons first way =>
      obtain ⟨hfirst, hway⟩ := List.forall_mem_cons.1 hpass
      have hreach : heap.Reachable youngOnly work first := .start (hstart first rfl) hfirst
      exact hreach.along hlinked hway h hlast

end Ways

/-! ### The outcome -/

/-- No object is marked. -/
def Clear (heap : Heap) : Prop :=
  ∀ slot ∈ heap.slots, ∀ o ∈ slot.object, o.marked = false

theorem Clear.isMarked {heap : Heap} (hclear : heap.Clear) (h : Handle) : heap.isMarked h = false := by
  refine Bool.eq_false_iff.2 fun hmarked => ?_
  obtain ⟨o, hget, ho⟩ := isMarked_iff.1 hmarked
  obtain ⟨slot, hslot, -, hobject⟩ := get?_eq_some_iff.1 hget
  have hunmarked := hclear slot (Array.mem_of_getElem? hslot) o hobject
  rw [ho] at hunmarked
  cases hunmarked

/-- Marking changes marks only. -/
theorem mark_eq_withMarks (order : Traversal) (youngOnly : Bool) (heap : Heap) (work : List Handle) :
    heap.mark order youngOnly work = heap.withMarks (heap.mark order youngOnly work).isMarked := by
  have hslots : (heap.mark order youngOnly work).slots =
      (heap.withMarks (heap.mark order youngOnly work).isMarked).slots := by
    refine slots_ext (fun i => ?_) (fun h => ?_)
    · rw [cell?_mark, cell?_withMarks]
    · rw [get?_mark, get?_withMarks]
  calc heap.mark order youngOnly work
    _ = { heap with slots := (heap.mark order youngOnly work).slots } :=
        mark_keeps (P := fun heap' => heap' = { heap with slots := heap'.slots })
          (fun heap' h hp => by rw [hp]; rfl) rfl
    _ = heap.withMarks (heap.mark order youngOnly work).isMarked := by rw [hslots]; rfl

open Classical in
/-- What marking does where it is to mark the given objects. -/
structure MarksExactly (order : Traversal) (youngOnly : Bool) (heap : Heap) (work : List Handle)
    (objects : Set Handle) : Prop where
  /-- The loop ends. Its rounds are one for each handle of the work and one for each reference in an object that it
  marks, so not more than these handles and all references in the heap. -/
  ends : ∃ rounds, EndsAfter order youngOnly heap work rounds (heap.mark order youngOnly work) ∧
    rounds + (heap.mark order youngOnly work).unmarkedReferences = work.length + heap.unmarkedReferences
  /-- Then the objects are marked, and no other. -/
  marked : ∀ h, (heap.mark order youngOnly work).isMarked h = true ↔ h ∈ objects
  /-- All but the marks is as it was. -/
  kept : heap.mark order youngOnly work = heap.withMarks fun h => decide (h ∈ objects)

theorem Clear.marksExactly {heap : Heap} (hclear : heap.Clear) (order : Traversal) (youngOnly : Bool)
    (work : List Handle) :
    MarksExactly order youngOnly heap work (heap.reached (heap.Passes youngOnly) work) := by
  classical
  have hmarked : ∀ h, (heap.mark order youngOnly work).isMarked h = true ↔
      h ∈ heap.reached (heap.Passes youngOnly) work := fun h =>
    (isMarked_mark_iff order hclear.isMarked).trans reachable_iff_mem_reached
  refine ⟨exists_rounds order youngOnly heap work, hmarked, ?_⟩
  refine (mark_eq_withMarks order youngOnly heap work).trans (congrArg heap.withMarks (funext fun h => ?_))
  rw [Bool.eq_iff_iff, hmarked, decide_eq_true_iff]

/-- **Marking ends and marks what can be reached**, on any heap without marks: the live objects that references lead to
from the work or, if it is for the young generation, the young objects that they lead to through young ones only. -/
theorem Clear.mark_reaches {heap : Heap} (hclear : heap.Clear) (order : Traversal) (work : List Handle) :
    MarksExactly order false heap work (heap.reached (fun h => heap.contains h = true) work) ∧
      MarksExactly order true heap work (heap.reached (fun h => heap.generation? h = some .young) work) := by
  have hlive : heap.Passes false = fun h => heap.contains h = true := funext fun h => propext passes_false_iff
  have hyoung : heap.Passes true = fun h => heap.generation? h = some .young :=
    funext fun h => propext passes_true_iff
  rw [← hlive, ← hyoung]
  exact ⟨hclear.marksExactly order false work, hclear.marksExactly order true work⟩

/-- A young object with two fields. -/
def node (left right : Value) : Object :=
  { type := .ofRow .typeDef 1, typeName := "Node", fields := [("left", left), ("right", right)] }

/-- An old object before two young ones, one of which refers to a third. That refers to itself and, as the object of a
caught fault, back to the one before it. The last young object refers to it too, but nothing refers to the last. -/
def tangle : Heap where
  slots := #[⟨0, some { node (.object ⟨1, 0⟩) (.object ⟨2, 0⟩) with generation := .old }⟩,
    ⟨0, some (node .null (.object ⟨3, 0⟩))⟩,
    ⟨0, some (node .null .null)⟩,
    ⟨0, some (node (.fault 7 (.ofObject ["Node"] ⟨1, 0⟩)) (.object ⟨3, 0⟩))⟩,
    ⟨1, some (node (.object ⟨3, 0⟩) (.object ⟨4, 0⟩))⟩]
  young := [⟨4, 1⟩, ⟨3, 0⟩, ⟨2, 0⟩, ⟨1, 0⟩]
  old := [⟨0, 0⟩]
  remembered := [⟨0, 0⟩]
  stats := { allocated := 6, promoted := 1, minorCollections := 1, reclaimed := 1 }

/-- The work names the old object, a young one twice, and the object that stood in the last slot before. What only the
old object refers to is not marked if marking is for the young generation. -/
theorem Clear.mark_reaches_tangle : tangle.Clear ∧
    MarksExactly .stored false tangle [⟨0, 0⟩, ⟨1, 0⟩, ⟨4, 0⟩, ⟨1, 0⟩]
      (tangle.reached (fun h => tangle.contains h = true) [⟨0, 0⟩, ⟨1, 0⟩, ⟨4, 0⟩, ⟨1, 0⟩]) ∧
    MarksExactly .stored true tangle [⟨0, 0⟩, ⟨1, 0⟩, ⟨4, 0⟩, ⟨1, 0⟩]
      (tangle.reached (fun h => tangle.generation? h = some .young) [⟨0, 0⟩, ⟨1, 0⟩, ⟨4, 0⟩, ⟨1, 0⟩]) ∧
    (tangle.old ++ tangle.young).filter (tangle.mark .stored false [⟨0, 0⟩, ⟨1, 0⟩, ⟨4, 0⟩, ⟨1, 0⟩]).isMarked =
      [⟨0, 0⟩, ⟨3, 0⟩, ⟨2, 0⟩, ⟨1, 0⟩] ∧
    (tangle.old ++ tangle.young).filter (tangle.mark .stored true [⟨0, 0⟩, ⟨1, 0⟩, ⟨4, 0⟩, ⟨1, 0⟩]).isMarked =
      [⟨3, 0⟩, ⟨1, 0⟩] := by
  have hclear : tangle.Clear := by
    unfold Clear
    decide
  obtain ⟨hlive, hyoung⟩ := hclear.mark_reaches .stored [⟨0, 0⟩, ⟨1, 0⟩, ⟨4, 0⟩, ⟨1, 0⟩]
  exact ⟨hclear, hlive, hyoung, by decide_cbv, by decide_cbv⟩

end Heap
end ManagedCode
