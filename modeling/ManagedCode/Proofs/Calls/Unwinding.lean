import ManagedCode.Proofs.Calls.Isolation

/-! Where an error goes. An error that is not catchable ends the run. A catchable one is offered to the calls of the
run, from the innermost on: each of them tries the catching regions around the instruction that it is at, the narrowest
first, and the first region that takes the fault decides. Only a catch type that names no type, and a handler that is
no instruction, put another error in place of the first, and that error ends the run. -/

namespace ManagedCode

/-! ### Regions -/

namespace Region

/-- The region takes the fault: it has no catch type, a nil one, or one that names a type the fault is an instance
of. -/
def Accepts (p : Program) (fault : Fault) (r : Region) : Prop :=
  r.catchType = none ∨ ∃ type, r.catchType = some type ∧
    (type.row = 0 ∨ ∃ name, p.index.typeName p.image type = .ok name ∧ fault.isInstanceOf name = true)

/-- The catch type of the region cannot be resolved. -/
def Unresolved (p : Program) (e : Error) (r : Region) : Prop :=
  ∃ type, r.catchType = some type ∧ type.row ≠ 0 ∧ p.index.typeName p.image type = .error e

/-- The region does not take the fault, and this can be told. -/
def Declines (p : Program) (fault : Fault) (r : Region) : Prop :=
  ¬r.Accepts p fault ∧ ∀ e, ¬r.Unresolved p e

end Region

theorem Token.index?_eq_none_iff (t : Token) : t.index? = none ↔ t.row = 0 := by
  unfold index?
  split <;> simp_all

namespace Program

variable {p : Program} {fault : Fault} {r : Region}

theorem catches_of_accepts (h : r.Accepts p fault) : p.catches fault r = .ok true := by
  unfold catches
  rcases h with hnone | ⟨type, htype, hnil | ⟨name, hname, hinstance⟩⟩
  · rw [hnone]
  · simp only [htype, (type.index?_eq_none_iff).2 hnil]
  · simp only [htype, hname]
    cases type.index? with
    | none => rfl
    | some index => simp only [bind, Except.bind, pure, Except.pure, hinstance]

theorem catches_of_unresolved {e : Error} (h : r.Unresolved p e) : p.catches fault r = .error e := by
  obtain ⟨type, htype, hrow, hname⟩ := h
  unfold catches
  cases hindex : type.index? with
  | none => exact absurd ((type.index?_eq_none_iff).1 hindex) hrow
  | some index => simp only [htype, hindex, hname, bind, Except.bind]

theorem catches_of_declines (h : r.Declines p fault) : p.catches fault r = .ok false := by
  cases htype : r.catchType with
  | none => exact absurd (Or.inl htype) h.1
  | some type =>
      have hrow : type.row ≠ 0 := fun hnil => h.1 (Or.inr ⟨type, htype, Or.inl hnil⟩)
      cases hindex : type.index? with
      | none => exact absurd ((type.index?_eq_none_iff).1 hindex) hrow
      | some index =>
          cases hname : p.index.typeName p.image type with
          | error e => exact absurd ⟨type, htype, hrow, hname⟩ (h.2 e)
          | ok name =>
              have hinstance : fault.isInstanceOf name = false := by
                cases hinstance : fault.isInstanceOf name with
                | false => rfl
                | true => exact absurd (Or.inr ⟨type, htype, Or.inr ⟨name, hname, hinstance⟩⟩) h.1
              simp only [catches, htype, hindex, hname, bind, Except.bind, pure, Except.pure, hinstance]

end Program

/-! ### Frames -/

namespace Frame

variable {p : Program} {fault : Fault} {f : Frame}

/-- A catching region of the frame around a position. -/
structure Tries (f : Frame) (offset : Nat) (r : Region) : Prop where
  mem : r ∈ f.regions
  kind : r.kind = .catching
  covers : r.covers offset = true

theorem mem_candidates {offset : Nat} {r : Region} : r ∈ f.candidates offset ↔ f.Tries offset r := by
  rw [candidates, List.mem_mergeSort, List.mem_filter, Bool.and_eq_true, beq_iff_eq]
  exact ⟨fun h => ⟨h.1, h.2.1, h.2.2⟩, fun h => ⟨h.mem, h.kind, h.covers⟩⟩

/-- The search for a handler comes to the region: it tries it, and all those it tried before decline. -/
def Meets (p : Program) (f : Frame) (offset : Nat) (fault : Fault) (r : Region) : Prop :=
  ∃ before after, f.candidates offset = before ++ r :: after ∧ ∀ s ∈ before, s.Declines p fault

/-- No region around the position takes the fault. -/
def DeclinesAt (p : Program) (f : Frame) (offset : Nat) (fault : Fault) : Prop :=
  ∀ r, f.Tries offset r → r.Declines p fault

/-- The first region that does not decline takes the fault, and its handler is the given instruction. -/
def HandlesAt (p : Program) (f : Frame) (offset : Nat) (fault : Fault) (index : Nat) : Prop :=
  ∃ r, f.Meets p offset fault r ∧ r.Accepts p fault ∧ f.indexOf r.handlerOffset.toNat = .ok index

/-- The first region that does not decline has a catch type that cannot be resolved, or takes the fault with a handler
that is no instruction. -/
def SpoilsAt (p : Program) (f : Frame) (offset : Nat) (fault : Fault) (e : Error) : Prop :=
  ∃ r, f.Meets p offset fault r ∧
    (r.Unresolved p e ∨ r.Accepts p fault ∧ f.indexOf r.handlerOffset.toNat = .error e)

/-- The frame declines a fault of the instruction it is at. -/
def Declines (p : Program) (f : Frame) (fault : Fault) : Prop :=
  f.DeclinesAt p f.currentOffset fault

/-- The frame handles a fault of the instruction it is at. -/
def Handles (p : Program) (f : Frame) (fault : Fault) (index : Nat) : Prop :=
  f.HandlesAt p f.currentOffset fault index

/-- The frame puts another error in place of a fault of the instruction it is at. -/
def Spoils (p : Program) (f : Frame) (fault : Fault) (e : Error) : Prop :=
  f.SpoilsAt p f.currentOffset fault e

theorem handlerAmong_append {before : List Region} (h : ∀ s ∈ before, s.Declines p fault) (rest : List Region) :
    f.handlerAmong p fault (before ++ rest) = f.handlerAmong p fault rest := by
  induction before with
  | nil => rfl
  | cons s before ih =>
      rw [List.cons_append, handlerAmong, Program.catches_of_declines (h s List.mem_cons_self)]
      exact ih fun s hs => h s (List.mem_cons_of_mem _ hs)

/-- A list of regions all of which decline, or the first that does not. -/
theorem declines_or_first (p : Program) (fault : Fault) (rs : List Region) : (∀ r ∈ rs, r.Declines p fault) ∨
    ∃ before r after, rs = before ++ r :: after ∧ (∀ s ∈ before, s.Declines p fault) ∧ ¬r.Declines p fault := by
  induction rs with
  | nil => exact Or.inl fun r hr => by cases hr
  | cons r rs ih =>
      by_cases hr : r.Declines p fault
      · rcases ih with hall | ⟨before, s, after, rfl, hbefore, hs⟩
        · exact Or.inl (List.forall_mem_cons.2 ⟨hr, hall⟩)
        · exact Or.inr ⟨r :: before, s, after, rfl, List.forall_mem_cons.2 ⟨hr, hbefore⟩, hs⟩
      · exact Or.inr ⟨[], r, rs, rfl, fun s hs => (by cases hs), hr⟩

/-- **The search in a frame** has one of three ends. -/
theorem declines_or_handles_or_spoils (p : Program) (f : Frame) (fault : Fault) :
    f.Declines p fault ∨ (∃ index, f.Handles p fault index) ∨ ∃ e, f.Spoils p fault e := by
  rcases declines_or_first p fault (f.candidates f.currentOffset) with hall | ⟨before, r, after, hlist, hbefore, hr⟩
  · exact Or.inl fun r hr => hall r (mem_candidates.2 hr)
  · have hmeets : f.Meets p f.currentOffset fault r := ⟨before, after, hlist, hbefore⟩
    by_cases haccepts : r.Accepts p fault
    · cases hindex : f.indexOf r.handlerOffset.toNat with
      | ok index => exact Or.inr (Or.inl ⟨index, r, hmeets, haccepts, hindex⟩)
      | error e => exact Or.inr (Or.inr ⟨e, r, hmeets, Or.inr ⟨haccepts, hindex⟩⟩)
    · obtain ⟨e, hunresolved⟩ : ∃ e, r.Unresolved p e := by
        by_contra hresolved
        exact hr ⟨haccepts, not_exists.1 hresolved⟩
      exact Or.inr (Or.inr ⟨e, r, hmeets, Or.inl hunresolved⟩)

/-! ### Answers -/

theorem answer_of_fatal {e : Error} (h : e.toFault? = none) : f.answer p e = .passes e := by
  simp only [answer, answerAt, h]

section Answers

variable {e : Error} {offset : Nat} (he : e.toFault? = some fault)

include he

theorem answerAt_of_declines (h : f.DeclinesAt p offset fault) : f.answerAt p offset e = .passes e := by
  have hall := handlerAmong_append (f := f) (fun s hs => h s (mem_candidates.1 hs)) []
  rw [List.append_nil] at hall
  simp only [answerAt, he, hall, handlerAmong]

theorem answerAt_of_handles {index : Nat} (h : f.HandlesAt p offset fault index) :
    f.answerAt p offset e = .handles fault index := by
  obtain ⟨r, ⟨before, after, hlist, hbefore⟩, haccepts, hindex⟩ := h
  have hsearch : f.handlerAmong p fault (f.candidates offset) = .ok (some index) := by
    rw [hlist, handlerAmong_append hbefore, handlerAmong, Program.catches_of_accepts haccepts]
    simp only [bind, Except.bind, hindex, if_true]
    rfl
  simp only [answerAt, he, hsearch]

theorem answerAt_of_spoils {e' : Error} (h : f.SpoilsAt p offset fault e') :
    f.answerAt p offset e = .passes e' := by
  obtain ⟨r, ⟨before, after, hlist, hbefore⟩, hspoils⟩ := h
  have hsearch : f.handlerAmong p fault (f.candidates offset) = .error e' := by
    rw [hlist, handlerAmong_append hbefore, handlerAmong]
    rcases hspoils with hunresolved | ⟨haccepts, hindex⟩
    · rw [Program.catches_of_unresolved hunresolved]
      rfl
    · rw [Program.catches_of_accepts haccepts]
      simp only [bind, Except.bind, hindex, if_true]
  simp only [answerAt, he, hsearch]

end Answers

end Frame

/-- What is put in place of a fault cannot be caught. -/
theorem Frame.Spoils.fatal {p : Program} {f : Frame} {fault : Fault} {e : Error} (h : f.Spoils p fault e) :
    e.toFault? = none := by
  obtain ⟨r, -, ⟨type, -, -, hname⟩ | ⟨-, hindex⟩⟩ := h
  · have hmetadata : e.isMetadata = true := p.index.typeName_metadata p.image type e hname
    exact Option.isNone_iff_eq_none.1 (Error.isFatal_of_isMetadata hmetadata)
  · obtain ⟨rfl, -⟩ := Frame.indexOf_eq_error_iff.1 hindex
    rfl

/-! ### Through the calls of a run -/

theorem use_ne_host_of_ownCalls {acts above rest : List Activation} {b : Activation}
    (h : ownCalls acts = above ++ b :: rest) : ∀ c ∈ above, c.use ≠ .host := by
  induction acts generalizing above with
  | nil =>
      cases above <;> cases h
  | cons a below ih =>
      rw [ownCalls] at h
      cases above with
      | nil =>
          intro c hc
          cases hc
      | cons c above =>
          split at h
          · simp at h
          · next ha =>
            obtain ⟨rfl, htail⟩ := List.cons.inj h
            exact List.forall_mem_cons.2 ⟨ha, ih htail⟩

namespace Machine

variable {p : Program} {config : Config}

/-- An error that all calls of the run pass on reaches the host. -/
theorem unwind_of_passes (m : Machine) {e : Error} {acts : List Activation}
    (h : ∀ c ∈ ownCalls acts, c.frame.answer p e = .passes e) :
    m.unwind p e acts = .failed { m with activations := belowHost acts } e := by
  induction acts with
  | nil => rw [unwind, belowHost]
  | cons a below ih =>
      rw [ownCalls] at h
      rw [unwind_cons, belowHost]
      split at h
      · next ha =>
        rw [h a List.mem_cons_self, if_pos ha]
        exact if_pos ha
      · next ha =>
        rw [h a List.mem_cons_self, if_neg ha]
        simp only [if_neg ha]
        exact ih fun c hc => h c (List.mem_cons_of_mem _ hc)

/-- An error that the calls above pass on comes to the next call. -/
theorem unwind_append (m : Machine) {e : Error} {above : List Activation}
    (h : ∀ c ∈ above, c.use ≠ .host ∧ c.frame.answer p e = .passes e) (acts : List Activation) :
    m.unwind p e (above ++ acts) = m.unwind p e acts := by
  induction above with
  | nil => rfl
  | cons a above ih =>
      obtain ⟨ha, hanswer⟩ := h a List.mem_cons_self
      rw [List.cons_append, unwind_cons, hanswer]
      simp only [if_neg ha]
      exact ih fun c hc => h c (List.mem_cons_of_mem _ hc)

section Calls

variable {acts above rest : List Activation} {b : Activation} {e : Error}

theorem unwind_of_handles (m : Machine) (hown : ownCalls acts = above ++ b :: rest)
    (habove : ∀ c ∈ above, c.frame.answer p e = .passes e) {fault : Fault} {index : Nat}
    (hb : b.frame.answer p e = .handles fault index) : m.unwind p e acts = .running { m with
      activations := { b with frame := b.frame.catching (fault.toValue (m.identityOf e)) index } ::
        (rest ++ belowHost acts)
      fresh := m.fresh + 1 } := by
  have hacts : acts = above ++ b :: (rest ++ belowHost acts) := by
    calc
      acts = ownCalls acts ++ belowHost acts := (ownCalls_append_belowHost acts).symm
      _ = above ++ b :: (rest ++ belowHost acts) := by rw [hown, List.append_assoc, List.cons_append]
  conv_lhs => rw [hacts]
  rw [unwind_append m (fun c hc => ⟨use_ne_host_of_ownCalls hown c hc, habove c hc⟩), unwind_cons, hb]

theorem unwind_of_fatal (m : Machine) (he : e.toFault? = none) (acts : List Activation) :
    m.unwind p e acts = .failed { m with activations := belowHost acts } e :=
  unwind_of_passes m fun _ _ => Frame.answer_of_fatal he

/-- An error that a call puts in place of another, and that cannot be caught, reaches the host. -/
theorem unwind_of_replaced (m : Machine) (hown : ownCalls acts = above ++ b :: rest)
    (habove : ∀ c ∈ above, c.frame.answer p e = .passes e) {e' : Error} (hb : b.frame.answer p e = .passes e')
    (he' : e'.toFault? = none) : m.unwind p e acts = .failed { m with activations := belowHost acts } e' := by
  induction acts generalizing above with
  | nil => cases above <;> cases hown
  | cons a below ih =>
      rw [ownCalls] at hown
      rw [unwind_cons, belowHost]
      cases above with
      | nil =>
          obtain rfl : a = b := by
            split at hown <;> exact (List.cons.inj hown).1
          rw [hb]
          dsimp only
          split
          · rfl
          · exact unwind_of_fatal m he' below
      | cons c above =>
          split at hown
          · simp at hown
          · next ha =>
            obtain ⟨rfl, htail⟩ := List.cons.inj hown
            rw [habove a List.mem_cons_self]
            simp only [if_neg ha]
            exact ih htail fun c hc => habove c (List.mem_cons_of_mem _ hc)

end Calls

/-! ### Callers wait at calls -/

/-- The calls of the run below the innermost wait at the instructions that started the calls above them. -/
def Waiting : List Activation → Prop
  | [] => True
  | a :: below => a.use ≠ .host → ∀ c ∈ ownCalls below, c.frame.AtCall

theorem Waiting.tail {a : Activation} {below : List Activation} (h : Waiting (a :: below)) (ha : a.use ≠ .host) :
    Waiting below := by
  cases below with
  | nil => trivial
  | cons b rest =>
      intro hb c hc
      refine h ha c ?_
      rw [ownCalls, if_neg hb]
      exact List.mem_cons_of_mem _ hc

theorem Waiting.callers {a : Activation} {below : List Activation} (h : Waiting (a :: below)) :
    ∃ callers, ownCalls (a :: below) = a :: callers ∧ ∀ c ∈ callers, c.frame.AtCall := by
  by_cases ha : a.use = .host
  · refine ⟨[], if_pos ha, fun c hc => ?_⟩
    cases hc
  · exact ⟨ownCalls below, if_neg ha, h ha⟩

theorem unwind_waiting {m m' : Machine} {e : Error} {acts : List Activation} (hacts : Waiting acts)
    (h : m.unwind p e acts = .running m') : Waiting m'.activations :=
  (unwind_invariant (fun _ _ huse hleft => hleft.tail huse) (fun _ _ _ _ hleft => hleft) hacts h).1

theorem step_waiting {m m' : Machine} (hm : Waiting m.activations) (h : m.step p config = .running m') :
    Waiting m'.activations := by
  cases hacts : m.activations with
  | nil =>
      rw [step, hacts] at h
      cases h
  | cons a below =>
      rw [hacts] at hm
      obtain ⟨move, hproper, hstep⟩ := step_of_activations p config hacts
      rw [hstep] at h
      cases move with
      | stays m₁ frame =>
          cases h
          exact hm
      | calls m₁ frame callee use =>
          cases h
          intro _ c hc
          rw [ownCalls] at hc
          split at hc
          · obtain rfl := List.mem_singleton.1 hc
            exact hproper.1
          · next ha =>
            rcases List.mem_cons.1 hc with rfl | hc
            · exact hproper.1
            · exact hm ha c hc
      | fails m₁ e => exact unwind_waiting hm h
      | returns m₁ value =>
          change m₁.deliver a.use below value = .running m' at h
          unfold deliver at h
          split at h
          · cases h
          · cases h
          · next huse =>
            cases h
            exact hm.tail (by rw [huse]; decide)
          · next huse =>
            cases h
            exact hm.tail (by rw [huse]; decide)

theorem Reaches.waiting {m m' : Machine} (h : Reaches p config m m') (hm : Waiting m.activations) :
    Waiting m'.activations := by
  induction h with
  | refl => exact hm
  | tail _ hstep ih => exact step_waiting ih hstep

/-- Throwing an object raises a fault that carries it. -/
theorem perform_throw_payload {m m' : Machine} {a : Activation} {below : List Activation} {e : Error} {fault : Fault}
    {h : Handle} (hhead : a.frame.stack.head? = some (.object h))
    (hfails : m.perform p config a below .throw = .failed m' e) (he : e.toFault? = some fault) :
    fault.payload = some h := by
  obtain ⟨stack, hstack⟩ : ∃ stack, a.frame.stack = .object h :: stack := List.head?_eq_some_iff.1 hhead
  simp only [perform, Frame.pop, hstack, raise] at hfails
  cases hobject : m.heap.object h with
  | ok o =>
      simp only [hobject] at hfails
      cases hfails
      cases he
      rfl
  | error e' =>
      simp only [hobject] at hfails
      cases hfails
      unfold Heap.object at hobject
      split at hobject
      · cases hobject
      · cases hobject
        cases he

/-- The next step ends the run with an error, and the machine is the given one then. -/
def EndsIn (p : Program) (config : Config) (m m' : Machine) (e : Error) : Prop :=
  ∀ fuel, m.run p config (fuel + 1) = some (m', .error e)

/-- What becomes of the error `e` of the step at `m`, whose instruction left the machine `m'`. The calls of the run are
`own`, and `base` are the calls in flight before it. -/
structure Unwinds (p : Program) (config : Config) (m m' : Machine) (own base : List Activation) (e : Error) :
    Prop where
  /-- An error that cannot be caught ends the run. -/
  fatal : e.toFault? = none → m.EndsIn p config { m' with activations := base } e
  /-- A fault that all calls decline reaches the host as the error it was. -/
  declined : ∀ fault, e.toFault? = some fault → (∀ c ∈ own, c.frame.Declines p fault) →
    m.EndsIn p config { m' with activations := base } e
  /-- The innermost call that does not decline handles the fault: the calls above it are gone, those below it are as
  they were, and its frame goes on at the handler with the thrown object, or else the fault, as its stack. -/
  handled : ∀ fault above b rest index, e.toFault? = some fault → own = above ++ b :: rest →
    (∀ c ∈ above, c.frame.Declines p fault) → b.frame.Handles p fault index → ∃ value fresh,
      (∀ h, fault.payload = some h → value = .object h) ∧
      (fault.payload = none → ∃ identity, value = .fault identity fault) ∧
      m.step p config = .running { m' with
        activations := { b with frame := { b.frame with stack := [value], ip := index } } :: (rest ++ base)
        fresh := fresh }
  /-- The search for the innermost call may meet a region that it cannot use, and another error ends the run. -/
  spoiled : ∀ fault above b rest e', e.toFault? = some fault → own = above ++ b :: rest →
    (∀ c ∈ above, c.frame.Declines p fault) → b.frame.Spoils p fault e' →
    e'.toFault? = none ∧ m.EndsIn p config { m' with activations := base } e'
  /-- There is no other case. -/
  decided : ∀ fault, e.toFault? = some fault → (∀ c ∈ own, c.frame.Declines p fault) ∨
    ∃ above b rest, own = above ++ b :: rest ∧ (∀ c ∈ above, c.frame.Declines p fault) ∧
      ((∃ index, b.frame.Handles p fault index) ∨ ∃ e', b.frame.Spoils p fault e')

theorem endsIn_of_step {m m' : Machine} {e : Error} (h : m.step p config = .failed m' e) : m.EndsIn p config m' e := by
  intro fuel
  rw [run_succ, h]
  rfl

/-- Calls all of which decline the fault, or the innermost that does not. -/
theorem declines_or_innermost (p : Program) (fault : Fault) (own : List Activation) :
    (∀ c ∈ own, c.frame.Declines p fault) ∨
      ∃ above b rest, own = above ++ b :: rest ∧ (∀ c ∈ above, c.frame.Declines p fault) ∧
        ((∃ index, b.frame.Handles p fault index) ∨ ∃ e', b.frame.Spoils p fault e') := by
  induction own with
  | nil => exact Or.inl fun c hc => by cases hc
  | cons a own ih =>
      rcases Frame.declines_or_handles_or_spoils p a.frame fault with ha | hends
      · rcases ih with hall | ⟨above, b, rest, rfl, habove, hb⟩
        · exact Or.inl (List.forall_mem_cons.2 ⟨ha, hall⟩)
        · exact Or.inr ⟨a :: above, b, rest, rfl, List.forall_mem_cons.2 ⟨ha, habove⟩, hb⟩
      · exact Or.inr ⟨[], a, own, rfl, fun c hc => (by cases hc), hends⟩

theorem toValue_cases (fault : Fault) (identity : Nat) :
    (∀ h, fault.payload = some h → fault.toValue identity = .object h) ∧
      (fault.payload = none → ∃ identity', fault.toValue identity = .fault identity' fault) := by
  unfold Fault.toValue
  refine ⟨fun h hpayload => ?_, fun hpayload => ⟨identity, ?_⟩⟩
  · rw [hpayload]
  · rw [hpayload]

theorem passes_of_declines {e : Error} {fault : Fault} (he : e.toFault? = some fault) {calls : List Activation}
    (h : ∀ c ∈ calls, c.frame.Declines p fault) : ∀ c ∈ calls, c.frame.answer p e = .passes e :=
  fun c hc => Frame.answerAt_of_declines he (h c hc)

theorem unwinds_of_step {m m' : Machine} {e : Error} {acts : List Activation}
    (hstep : m.step p config = m'.unwind p e acts) : Unwinds p config m m' (ownCalls acts) (belowHost acts) e where
  fatal he := endsIn_of_step (hstep.trans (unwind_of_fatal m' he acts))
  declined fault he hown :=
    endsIn_of_step (hstep.trans (unwind_of_passes m' (passes_of_declines he hown)))
  handled fault above b rest index he hown habove hb := by
    obtain ⟨hobject, hfault⟩ := toValue_cases fault (m'.identityOf e)
    have hunwind := unwind_of_handles m' hown (passes_of_declines he habove) (Frame.answerAt_of_handles he hb)
    exact ⟨_, _, hobject, hfault, hstep.trans hunwind⟩
  spoiled fault above b rest e' he hown habove hb := by
    refine ⟨hb.fatal, endsIn_of_step (hstep.trans ?_)⟩
    exact unwind_of_replaced m' hown (passes_of_declines he habove) (Frame.answerAt_of_spoils he hb) hb.fatal
  decided fault _ := declines_or_innermost p fault (ownCalls acts)

/-- **Where an error goes.** Let an instruction of the innermost call `a` of a run fail, and let `callers` be the other
calls of the run. Each of them waits at the instruction of its call, and the error goes through the calls as described;
an object that the instruction throws is what the fault carries. -/
theorem error_unwinding (p : Program) (config : Config) {m₀ m₁ m : Machine} {method : Token} {args : List Value}
    (henter : m₀.enter p config method args .host = .ok m₁) (hreach : Reaches p config m₁ m) {a : Activation}
    {below : List Activation} (hacts : m.activations = a :: below) {i : Instruction}
    (hi : a.frame.code[a.frame.ip]? = some i) {m' : Machine} {e : Error}
    (hfails : m.perform p config a below i.op = .failed m' e) :
    ∃ callers, below = callers ++ m₀.activations ∧ (∀ c ∈ callers, c.frame.AtCall) ∧
      Unwinds p config m m' (a :: callers) m₀.activations e ∧
      ∀ fault h, e.toFault? = some fault → i.op = .throw → a.frame.stack.head? = some (.object h) →
        fault.payload = some h := by
  have hwaiting : Waiting m.activations := by
    refine hreach.waiting ?_
    obtain ⟨callee, -, -, rfl⟩ := enter_cases henter
    exact fun huse => absurd rfl huse
  have hstep : m.step p config = m'.unwind p e m.activations := by
    simp only [step, hacts, hi, hfails]
  have hunwinds := unwinds_of_step hstep
  have hsplit := ownCalls_append_belowHost m.activations
  obtain ⟨-, hbase⟩ := hreach.base henter
  rw [hbase] at hunwinds hsplit
  rw [hacts] at hwaiting hunwinds hsplit
  obtain ⟨callers, hown, hatCall⟩ := hwaiting.callers
  rw [hown] at hunwinds hsplit
  refine ⟨callers, (List.cons.inj hsplit).2.symm, hatCall, hunwinds, fun fault h he hop hhead => ?_⟩
  rw [hop] at hfails
  exact perform_throw_payload hhead hfails he

end Machine

/-- The region around the call: it catches null references. -/
def rescueRegion : Region where
  kind := .catching
  tryOffset := 0
  tryLength := 5
  handlerOffset := 6
  catchType := some (.ofRow .typeRef 1)

/-- The entry point calls a method that throws null, and catches what it throws. -/
def rescueImage : Image where
  entryPoint := .ofRow .methodDef 1
  types := [{ name := "Program" }]
  typeRefs := [{ space := "System", name := "NullReferenceException" }]
  methods :=
    [{ owner := .ofRow .typeDef 1, name := "Main",
       code := [0x28, 0x02, 0x00, 0x00, 0x06, 0x2A, 0x26, 0x1D, 0x2A], regions := [rescueRegion] },
     { owner := .ofRow .typeDef 1, name := "Boom", code := [0x14, 0x7A] }]

def rescueProgram : Program where
  image := rescueImage
  index := (Index.build rescueImage).toOption.getD {}
  entryPoint := .ofRow .methodDef 1
  entrySignature := {}

/-- The machine at the first instruction of the entry point. -/
def rescueStart : Machine :=
  (Machine.enter rescueProgram {} {} (.ofRow .methodDef 1) [] .host).toOption.getD {}

/-- The machine at the instruction that throws. -/
def rescueThrowing : Machine :=
  ((rescueStart.step rescueProgram {}).machine.step rescueProgram {}).machine

theorem rescueThrowing_reached : Machine.Reaches rescueProgram {} rescueStart rescueThrowing := by
  have hcall : rescueStart.step rescueProgram {} = .running (rescueStart.step rescueProgram {}).machine := by cbv
  have hnull : (rescueStart.step rescueProgram {}).machine.step rescueProgram {} = .running rescueThrowing := by cbv
  have called : Machine.Reaches rescueProgram {} rescueStart (rescueStart.step rescueProgram {}).machine :=
    .single hcall
  exact called.tail hnull

/-- The fault goes through the method that throws it and is caught around the call. -/
theorem Machine.error_unwinding_rescue : ∃ a b identity fresh, rescueThrowing.activations = [a, b] ∧
    rescueThrowing.perform rescueProgram {} a [b] .throw = .failed rescueThrowing .throwNull ∧
    rescueThrowing.step rescueProgram {} = .running { rescueThrowing with
      activations := [{ b with frame := { b.frame with
        stack := [.fault identity (.builtin "System.NullReferenceException" "throw null")]
        ip := 2 } }]
      fresh := fresh } := by
  have henter : Machine.enter rescueProgram {} {} (.ofRow .methodDef 1) [] .host = .ok rescueStart := by cbv
  obtain ⟨a, b, hacts⟩ : ∃ a b, rescueThrowing.activations = [a, b] := by
    refine List.length_eq_two.1 ?_
    decide_cbv
  have hnext : rescueThrowing.activations.map (fun c => c.frame.code[c.frame.ip]?) =
      [some ⟨1, .throw⟩, some ⟨0, .call (.ofRow .methodDef 2)⟩] := by decide_cbv
  have hstacks : rescueThrowing.activations.map (fun c => c.frame.stack) = [[.null], []] := by decide_cbv
  have htries : rescueThrowing.activations.map (fun c => c.frame.candidates c.frame.currentOffset) =
      [[], [rescueRegion]] := by decide_cbv
  have hhandlers : rescueThrowing.activations.map (fun c => c.frame.indexOf 6) =
      [.error (.invalidBranchTarget 1 6), .ok 2] := by decide_cbv
  have hname : rescueProgram.index.typeName rescueProgram.image (.ofRow .typeRef 1) =
      .ok "System.NullReferenceException" := by decide_cbv
  rw [hacts] at hnext hstacks htries hhandlers
  simp only [List.map_cons, List.map_nil, List.cons.injEq, and_true] at hnext hstacks htries hhandlers
  have hfails : rescueThrowing.perform rescueProgram {} a [b] .throw = .failed rescueThrowing .throwNull := by
    simp only [Machine.perform, Frame.pop, hstacks.1, raise]
  have hdeclines : a.frame.Declines rescueProgram (.builtin "System.NullReferenceException" "throw null") := by
    intro r hr
    have hmem := Frame.mem_candidates.2 hr
    rw [htries.1] at hmem
    cases hmem
  have hhandles : b.frame.Handles rescueProgram (.builtin "System.NullReferenceException" "throw null") 2 := by
    have haccepts : rescueRegion.Accepts rescueProgram (.builtin "System.NullReferenceException" "throw null") :=
      Or.inr ⟨_, rfl, Or.inr ⟨_, hname, by decide_cbv⟩⟩
    exact ⟨rescueRegion, ⟨[], [], htries.2, fun s hs => by cases hs⟩, haccepts, hhandlers.2⟩
  obtain ⟨callers, hcallers, -, hunwinds, -⟩ :=
    Machine.error_unwinding rescueProgram {} henter rescueThrowing_reached hacts hnext.1 hfails
  obtain rfl : [b] = callers := hcallers.trans (List.append_nil callers)
  obtain ⟨value, fresh, -, hvalue, hstep⟩ := hunwinds.handled _ [a] b [] 2 rfl rfl
    (fun c hc => List.mem_singleton.1 hc ▸ hdeclines) hhandles
  obtain ⟨identity, rfl⟩ := hvalue rfl
  exact ⟨a, b, identity, fresh, hacts, hfails, hstep⟩

end ManagedCode
