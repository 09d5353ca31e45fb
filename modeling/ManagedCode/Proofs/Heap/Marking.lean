import ManagedCode.Proofs.Heap.View

/-! The graph of references in a heap, and what marking does to it. Marking changes nothing but marks, so it can be
followed on the graph of the heap it starts from: the marked objects are closed under references except for those that
are still to be visited, and every marked object can be reached. Together they say that marking a heap without marks
marks exactly what can be reached. -/

namespace ManagedCode

/-- The objects that the fields of an object refer to, in the order of the fields. -/
def Object.refs (o : Object) : List Handle :=
  (o.fields.map Prod.snd).filterMap Value.heapRef?

theorem Object.mem_children {order : Traversal} {owner : Handle} {o : Object} {h : Handle} :
    h ∈ o.children order owner ↔ h ∈ o.refs := by
  rw [Object.children, Object.refs, List.mem_filterMap, List.mem_filterMap]
  constructor
  · rintro ⟨v, hv, href⟩
    exact ⟨v, (order.values_perm owner _).mem_iff.1 hv, href⟩
  · rintro ⟨v, hv, href⟩
    exact ⟨v, (order.values_perm owner _).mem_iff.2 hv, href⟩

namespace Heap

/-- A field of the object that `h` denotes refers to `c`. -/
def Refers (heap : Heap) (h c : Handle) : Prop :=
  ∃ o, heap.get? h = some o ∧ c ∈ o.refs

/-- The handle denotes an object that marking may pass. -/
def Passes (heap : Heap) (youngOnly : Bool) (h : Handle) : Prop :=
  ∃ o, heap.get? h = some o ∧ (youngOnly = false ∨ o.generation = .young)

/-- What can be reached from the handles in `work` through references, passing only objects that may be passed. -/
inductive Reachable (heap : Heap) (youngOnly : Bool) (work : List Handle) : Handle → Prop where
  | start {h : Handle} (hwork : h ∈ work) (hpass : heap.Passes youngOnly h) : Reachable heap youngOnly work h
  | field {h c : Handle} (hreach : Reachable heap youngOnly work h) (href : heap.Refers h c)
      (hpass : heap.Passes youngOnly c) : Reachable heap youngOnly work c

theorem Reachable.passes {heap : Heap} {youngOnly : Bool} {work : List Handle} {h : Handle}
    (hreach : heap.Reachable youngOnly work h) : heap.Passes youngOnly h := by
  cases hreach with
  | start _ hpass => exact hpass
  | field _ _ hpass => exact hpass

theorem passes_false_iff {heap : Heap} {h : Handle} : heap.Passes false h ↔ heap.contains h = true := by
  simp [Passes, contains_iff]

theorem passes_true_iff {heap : Heap} {h : Handle} : heap.Passes true h ↔ heap.generation? h = some .young := by
  simp [Passes, generation?_eq_some_iff]

/-! ### One mark -/

section SetMarked

variable (heap : Heap) (h : Handle)

theorem get?_setMarked (h' : Handle) : (heap.setMarked h).get? h' =
    if h' = h then (heap.get? h').map fun o => { o with marked := true } else heap.get? h' :=
  get?_modify ..

theorem refers_setMarked {h' c : Handle} : (heap.setMarked h).Refers h' c ↔ heap.Refers h' c := by
  unfold Refers
  rw [get?_setMarked]
  by_cases heq : h' = h
  · rw [if_pos heq]
    cases heap.get? h' <;> simp [Object.refs]
  · rw [if_neg heq]

theorem passes_setMarked {youngOnly : Bool} {c : Handle} :
    (heap.setMarked h).Passes youngOnly c ↔ heap.Passes youngOnly c := by
  unfold Passes
  rw [get?_setMarked]
  by_cases heq : c = h
  · rw [if_pos heq]
    cases heap.get? c <;> simp
  · rw [if_neg heq]

theorem isMarked_setMarked (h' : Handle) :
    (heap.setMarked h).isMarked h' = if h' = h then heap.contains h' else heap.isMarked h' := by
  unfold isMarked contains
  rw [get?_setMarked]
  by_cases heq : h' = h
  · rw [if_pos heq, if_pos heq]
    cases heap.get? h' <;> rfl
  · rw [if_neg heq, if_neg heq]

theorem isMarked_setMarked_of_isMarked {h' : Handle} (hmarked : heap.isMarked h' = true) :
    (heap.setMarked h).isMarked h' = true := by
  obtain ⟨o, hget, -⟩ := isMarked_iff.1 hmarked
  rw [isMarked_setMarked]
  split
  · exact contains_of_get? hget
  · exact hmarked

end SetMarked

/-! ### The loop -/

section Mark

variable {order : Traversal} {youngOnly : Bool} {heap : Heap} {work : List Handle}

/-- Marking is a sequence of single marks: what they keep, it keeps. -/
theorem mark_keeps {P : Heap → Prop} (hstep : ∀ heap h, P heap → P (heap.setMarked h)) (h0 : P heap) :
    P (heap.mark order youngOnly work) := by
  fun_induction mark order youngOnly heap work with
  | case1 heap => exact h0
  | case2 heap h work hget ih => exact ih h0
  | case3 heap h work o hget ho _ ih => exact ih (hstep heap h h0)
  | case4 heap h work o hget ho ih => exact ih h0

theorem mark_young : (heap.mark order youngOnly work).young = heap.young :=
  mark_keeps (P := fun heap' => heap'.young = heap.young) (fun _ _ hp => hp) rfl

theorem mark_old : (heap.mark order youngOnly work).old = heap.old :=
  mark_keeps (P := fun heap' => heap'.old = heap.old) (fun _ _ hp => hp) rfl

theorem mark_remembered : (heap.mark order youngOnly work).remembered = heap.remembered :=
  mark_keeps (P := fun heap' => heap'.remembered = heap.remembered) (fun _ _ hp => hp) rfl

theorem mark_free : (heap.mark order youngOnly work).free = heap.free :=
  mark_keeps (P := fun heap' => heap'.free = heap.free) (fun _ _ hp => hp) rfl

theorem mark_stats : (heap.mark order youngOnly work).stats = heap.stats :=
  mark_keeps (P := fun heap' => heap'.stats = heap.stats) (fun _ _ hp => hp) rfl

theorem cell?_mark (i : Nat) : (heap.mark order youngOnly work).cell? i = heap.cell? i :=
  mark_keeps (P := fun heap' => heap'.cell? i = heap.cell? i)
    (fun heap' h hp => (cell?_modify heap' h _ i).trans hp) rfl

theorem refers_mark {h c : Handle} : (heap.mark order youngOnly work).Refers h c ↔ heap.Refers h c :=
  mark_keeps (P := fun heap' => heap'.Refers h c ↔ heap.Refers h c)
    (fun heap' h' hp => (refers_setMarked heap' h').trans hp) Iff.rfl

theorem passes_mark {young : Bool} {h : Handle} :
    (heap.mark order youngOnly work).Passes young h ↔ heap.Passes young h :=
  mark_keeps (P := fun heap' => heap'.Passes young h ↔ heap.Passes young h)
    (fun heap' h' hp => (passes_setMarked heap' h').trans hp) Iff.rfl

theorem isMarked_mark_of_isMarked {h : Handle} (hmarked : heap.isMarked h = true) :
    (heap.mark order youngOnly work).isMarked h = true :=
  mark_keeps (P := fun heap' => heap'.isMarked h = true)
    (fun heap' h' hp => isMarked_setMarked_of_isMarked heap' h' hp) hmarked

/-- An object after marking is the object before it, up to its mark. -/
theorem get?_mark (h : Handle) : (heap.mark order youngOnly work).get? h =
    (heap.get? h).map fun o => { o with marked := (heap.mark order youngOnly work).isMarked h } := by
  refine mark_keeps (P := fun heap' => heap'.get? h =
    (heap.get? h).map fun o => { o with marked := heap'.isMarked h }) ?_ ?_
  · intro heap' h' hp
    rw [get?_setMarked, isMarked_setMarked]
    by_cases heq : h = h'
    · rw [if_pos heq, if_pos heq, contains, hp]
      cases heap.get? h <;> rfl
    · rw [if_neg heq, if_neg heq]
      exact hp
  · rw [isMarked]
    cases heap.get? h <;> rfl

/-- Every reference of a marked object that may be passed leads to a marked object or to one still to be visited. -/
def Frontier (heap : Heap) (youngOnly : Bool) (work : List Handle) : Prop :=
  ∀ h c, heap.isMarked h = true → heap.Refers h c → heap.Passes youngOnly c →
    heap.isMarked c = true ∨ c ∈ work

/-- A visited handle may be dropped from the work if it is marked or may not be passed. -/
theorem Frontier.skip {h : Handle} (hfrontier : heap.Frontier youngOnly (h :: work))
    (hskip : heap.Passes youngOnly h → heap.isMarked h = true) : heap.Frontier youngOnly work := by
  intro h' c hmarked href hpass
  rcases hfrontier h' c hmarked href hpass with hc | hc
  · exact Or.inl hc
  · rcases List.mem_cons.1 hc with rfl | hc
    · exact Or.inl (hskip hpass)
    · exact Or.inr hc

/-- Marking an object puts its references on the frontier. -/
theorem Frontier.visit {h : Handle} {o : Object} (hget : heap.get? h = some o)
    (hfrontier : heap.Frontier youngOnly (h :: work)) :
    (heap.setMarked h).Frontier youngOnly (o.children order h ++ work) := by
  intro h' c hmarked href hpass
  rw [refers_setMarked] at href
  rw [passes_setMarked] at hpass
  rw [List.mem_append]
  by_cases heq : h' = h
  · obtain ⟨o', hget', hc⟩ := href
    rw [heq, hget] at hget'
    obtain rfl := Option.some.inj hget'
    exact Or.inr (Or.inl (Object.mem_children.2 hc))
  · rw [isMarked_setMarked, if_neg heq] at hmarked
    rcases hfrontier h' c hmarked href hpass with hc | hc
    · exact Or.inl (isMarked_setMarked_of_isMarked heap h hc)
    · rcases List.mem_cons.1 hc with rfl | hc
      · left
        rw [isMarked_setMarked, if_pos rfl]
        exact contains_of_get? hget
      · exact Or.inr (Or.inr hc)

/-- Why a handle is passed over: it denotes nothing, or something marked, or something that may not be passed. -/
theorem isMarked_of_passed_over {h : Handle} {o : Object} (hget : heap.get? h = some o)
    (ho : ¬(o.marked = false ∧ (youngOnly = false ∨ o.generation = .young)))
    (hpass : heap.Passes youngOnly h) : heap.isMarked h = true := by
  obtain ⟨o', hget', hpass⟩ := hpass
  obtain rfl := Option.some.inj (hget.symm.trans hget')
  refine isMarked_iff.2 ⟨o, hget, ?_⟩
  cases hmarked : o.marked with
  | true => rfl
  | false => exact absurd ⟨hmarked, hpass⟩ ho

theorem frontier_mark (hfrontier : heap.Frontier youngOnly work) :
    (heap.mark order youngOnly work).Frontier youngOnly [] := by
  fun_induction mark order youngOnly heap work with
  | case1 heap => exact hfrontier
  | case2 heap h work hget ih =>
      refine ih (hfrontier.skip ?_)
      rintro ⟨o, hget', -⟩
      rw [hget] at hget'
      cases hget'
  | case3 heap h work o hget ho _ ih => exact ih (hfrontier.visit hget)
  | case4 heap h work o hget ho ih => exact ih (hfrontier.skip (isMarked_of_passed_over hget ho))

theorem isMarked_mark_of_mem {h : Handle} (hmem : h ∈ work) (hpass : heap.Passes youngOnly h) :
    (heap.mark order youngOnly work).isMarked h = true := by
  fun_induction mark order youngOnly heap work with
  | case1 heap => cases hmem
  | case2 heap h' work hget ih =>
      rcases List.mem_cons.1 hmem with rfl | hmem
      · obtain ⟨o, hget', -⟩ := hpass
        rw [hget] at hget'
        cases hget'
      · exact ih hmem hpass
  | case3 heap h' work o hget ho _ ih =>
      rcases List.mem_cons.1 hmem with rfl | hmem
      · apply isMarked_mark_of_isMarked
        rw [isMarked_setMarked, if_pos rfl]
        exact contains_of_get? hget
      · exact ih (List.mem_append_right _ hmem) ((passes_setMarked heap h').2 hpass)
  | case4 heap h' work o hget ho ih =>
      rcases List.mem_cons.1 hmem with rfl | hmem
      · exact isMarked_mark_of_isMarked (isMarked_of_passed_over hget ho hpass)
      · exact ih hmem hpass

/-- A property that references carry over to what may be passed holds of everything that marking marks. -/
theorem mark_sound {Q : Handle → Prop} (hclosed : ∀ h c, Q h → heap.Refers h c → heap.Passes youngOnly c → Q c)
    (hmarks : ∀ h, heap.isMarked h = true → Q h) (hwork : ∀ h ∈ work, heap.Passes youngOnly h → Q h)
    {h : Handle} (hmarked : (heap.mark order youngOnly work).isMarked h = true) : Q h := by
  fun_induction mark order youngOnly heap work with
  | case1 heap => exact hmarks h hmarked
  | case2 heap h' work hget ih =>
      exact ih hclosed hmarks (fun c hc => hwork c (List.mem_cons_of_mem _ hc)) hmarked
  | case3 heap h' work o hget ho _ ih =>
      have hQ : Q h' := hwork h' List.mem_cons_self ⟨o, hget, ho.2⟩
      refine ih ?_ ?_ ?_ hmarked
      · intro a c ha href hpass
        exact hclosed a c ha ((refers_setMarked heap h').1 href) ((passes_setMarked heap h').1 hpass)
      · intro a ha
        rw [isMarked_setMarked] at ha
        split at ha
        · next heq => exact heq ▸ hQ
        · exact hmarks a ha
      · intro c hc hpass
        rw [passes_setMarked] at hpass
        rcases List.mem_append.1 hc with hc | hc
        · exact hclosed h' c hQ ⟨o, hget, Object.mem_children.1 hc⟩ hpass
        · exact hwork c (List.mem_cons_of_mem _ hc) hpass
  | case4 heap h' work o hget ho ih =>
      exact ih hclosed hmarks (fun c hc => hwork c (List.mem_cons_of_mem _ hc)) hmarked

/-- **Marking marks exactly what can be reached**, if there were no marks before. -/
theorem isMarked_mark_iff (order : Traversal) (hclear : ∀ h, heap.isMarked h = false) {h : Handle} :
    (heap.mark order youngOnly work).isMarked h = true ↔ heap.Reachable youngOnly work h := by
  constructor
  · refine mark_sound (fun _ _ hreach href hpass => hreach.field href hpass) ?_
      (fun _ hmem hpass => .start hmem hpass)
    intro h hmarked
    rw [hclear] at hmarked
    cases hmarked
  · intro hreach
    have hfrontier : (heap.mark order youngOnly work).Frontier youngOnly [] := by
      apply frontier_mark
      intro h c hmarked
      rw [hclear] at hmarked
      cases hmarked
    induction hreach with
    | start hmem hpass => exact isMarked_mark_of_mem hmem hpass
    | field hreach href hpass ih =>
        rcases hfrontier _ _ ih (refers_mark.2 href) (passes_mark.2 hpass) with hmarked | hmem
        · exact hmarked
        · cases hmem

end Mark
end Heap
end ManagedCode
