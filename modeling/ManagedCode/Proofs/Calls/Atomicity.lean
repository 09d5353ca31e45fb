import ManagedCode.Proofs.Calls.Failures
import ManagedCode.Proofs.Calls.InPlace
import Mathlib

/-! Faults are atomic. Managed code can catch a fault and go on, so it would see whatever a failed instruction had done
by then. An instruction asks its questions and takes its operands first, and what can still fail after its first effect
on a slot, the heap, the console or the memo ends the run. So a fault leaves everything as it was, but for the operands
that were taken and the count of look-ups that found no method. -/

namespace ManagedCode

/-- What a fault leaves of a workspace: the machine, with no fewer look-ups that found no method, and the frame, with no
more than was on its stack. -/
structure Workspace.Spared (w w' : Workspace) : Prop where
  machine : ∃ misses, w.machine.dispatch.misses ≤ misses ∧
    w'.machine = { w.machine with dispatch := { w.machine.dispatch with misses } }
  frame : ∃ stack, stack <:+ w.frame.stack ∧ w'.frame = { w.frame with stack }

namespace Workspace.Spared

variable {w w' w'' : Workspace}

theorem refl (w : Workspace) : w.Spared w :=
  ⟨⟨_, Nat.le_refl _, rfl⟩, ⟨_, List.suffix_refl _, rfl⟩⟩

theorem trans (h : w.Spared w') (h' : w'.Spared w'') : w.Spared w'' := by
  obtain ⟨⟨misses, hmisses, hmachine⟩, ⟨stack, hstack, hframe⟩⟩ := h
  obtain ⟨⟨misses', hmisses', hmachine'⟩, ⟨stack', hstack', hframe'⟩⟩ := h'
  rw [hmachine] at hmisses' hmachine'
  rw [hframe] at hstack' hframe'
  exact ⟨⟨misses', Nat.le_trans hmisses hmisses', hmachine'⟩, ⟨stack', hstack'.trans hstack, hframe'⟩⟩

end Workspace.Spared

/-- A virtual call that finds no method has looked for it in the memo, and may have counted that. -/
theorem Machine.resolveVirtual_misses {p : Program} {m m' : Machine} {site : Token} {receiver : Handle} {name : String}
    {paramCount : Nat} {e : Error} (h : m.resolveVirtual p site receiver name paramCount = (m', .error e)) :
    ∃ misses, m.dispatch.misses ≤ misses ∧ m' = { m with dispatch := { m.dispatch with misses } } := by
  unfold resolveVirtual Dispatch.lookup at h
  cases hobject : m.heap.object receiver with
  | error e' =>
      simp only [hobject] at h
      cases h
      exact ⟨_, Nat.le_refl _, rfl⟩
  | ok o =>
      cases hfind : m.dispatch.find? site o.type with
      | some method =>
          simp only [hobject, hfind] at h
          cases h
      | none =>
          cases hmethod : p.index.resolveVirtual? o.type name paramCount with
          | some method =>
              simp only [hobject, hfind, hmethod] at h
              cases h
          | none =>
              simp only [hobject, hfind, hmethod] at h
              cases h
              exact ⟨_, Nat.le_succ _, rfl⟩

namespace InPlace

variable {α β : Type}

/-- The computation spares the workspace, unless it ends the run. -/
structure Spares (work : InPlace α) : Prop where
  result : ∀ w x w', work w = .ok x w' → w.Spared w'
  fault : ∀ w e w', work w = .error e w' → e.isCatchable = true → w.Spared w'

/-- A fault of the computation spares the workspace. -/
def Atomic (work : InPlace α) : Prop :=
  ∀ w e w', work w = .error e w' → e.isCatchable = true → w.Spared w'

/-- No error of the computation is a fault. -/
def Faultless (work : InPlace α) : Prop :=
  ∀ w e w', work w = .error e w' → e.isFatal = true

/-! ### One computation after the other -/

theorem bind_eq_ok {work : InPlace α} {rest : α → InPlace β} {w w' : Workspace} {y : β}
    (h : (work >>= rest) w = .ok y w') : ∃ x w₁, work w = .ok x w₁ ∧ rest x w₁ = .ok y w' := by
  simp only [Bind.bind, EStateM.bind] at h
  split at h
  · next x w₁ heq => exact ⟨x, w₁, heq, h⟩
  · cases h

theorem bind_eq_error {work : InPlace α} {rest : α → InPlace β} {w w' : Workspace} {e : Error}
    (h : (work >>= rest) w = .error e w') :
    work w = .error e w' ∨ ∃ x w₁, work w = .ok x w₁ ∧ rest x w₁ = .error e w' := by
  simp only [Bind.bind, EStateM.bind] at h
  split at h
  · next x w₁ heq => exact .inr ⟨x, w₁, heq, h⟩
  · next heq =>
    cases h
    exact .inl heq

theorem Spares.atomic {work : InPlace α} (h : Spares work) : Atomic work :=
  h.fault

theorem Faultless.atomic {work : InPlace α} (h : Faultless work) : Atomic work := by
  intro w e w' hwork he
  rw [Error.isCatchable_eq_false (h w e w' hwork)] at he
  cases he

theorem Faultless.bind {work : InPlace α} {rest : α → InPlace β} (h : Faultless work)
    (hrest : ∀ x, Faultless (rest x)) : Faultless (work >>= rest) := by
  intro w e w' hwork
  rcases bind_eq_error hwork with hwork | ⟨x, w₁, -, hnext⟩
  · exact h w e w' hwork
  · exact hrest x w₁ e w' hnext

/-- What spares the workspace may come first. -/
theorem Spares.andThen {work : InPlace α} {rest : α → InPlace β} (h : Spares work) (hrest : ∀ x, Atomic (rest x)) :
    Atomic (work >>= rest) := by
  intro w e w' hwork he
  rcases bind_eq_error hwork with hwork | ⟨x, w₁, hwork, hnext⟩
  · exact h.fault w e w' hwork he
  · exact (h.result w x w₁ hwork).trans (hrest x w₁ e w' hnext he)

theorem Spares.bind {work : InPlace α} {rest : α → InPlace β} (h : Spares work) (hrest : ∀ x, Spares (rest x)) :
    Spares (work >>= rest) := by
  refine ⟨fun w y w' hwork => ?_, h.andThen fun x => (hrest x).atomic⟩
  obtain ⟨x, w₁, hwork, hnext⟩ := bind_eq_ok hwork
  exact (h.result w x w₁ hwork).trans ((hrest x).result w₁ y w' hnext)

/-- What raises no fault may come last. -/
theorem Atomic.andThen {work : InPlace α} {rest : α → InPlace β} (h : Atomic work) (hrest : ∀ x, Faultless (rest x)) :
    Atomic (work >>= rest) := by
  intro w e w' hwork he
  rcases bind_eq_error hwork with hwork | ⟨x, w₁, -, hnext⟩
  · exact h w e w' hwork he
  · rw [Error.isCatchable_eq_false (hrest x w₁ e w' hnext)] at he
    cases he

/-! ### Effects -/

theorem spares_pure (x : α) : Spares (pure x) := by
  refine ⟨fun w y w' h => ?_, fun w e w' h => ?_⟩
  · cases h
    exact .refl w
  · cases h

theorem faultless_pure (x : α) : Faultless (pure x) := by
  intro w e w' h
  cases h

theorem spares_throw (e : Error) : Spares (throw e : InPlace α) := by
  refine ⟨fun w y w' h => ?_, fun w e w' h _ => ?_⟩
  · cases h
  · cases h
    exact .refl w

theorem spares_inspect (question : Workspace → Except Error α) : Spares (inspect question) := by
  refine ⟨fun w y w' h => ?_, fun w e w' h _ => ?_⟩
  · unfold inspect at h
    split at h <;> cases h
    exact .refl w
  · unfold inspect at h
    split at h <;> cases h
    exact .refl w

theorem spares_ask (answer : Except Error α) : Spares (ask answer) :=
  spares_inspect _

/-- Taking operands. -/
theorem spares_onFrame {operation : Frame → Except Error (α × Frame)}
    (h : ∀ f, Yields (fun r => ∃ stack, stack <:+ f.stack ∧ r.2 = { f with stack }) (operation f)) :
    Spares (onFrame operation) := by
  refine ⟨fun w y w' hwork => ?_, fun w e w' hwork _ => ?_⟩
  · unfold onFrame at hwork
    split at hwork <;> cases hwork
    next heq => exact ⟨⟨_, Nat.le_refl _, rfl⟩, h w.frame _ heq⟩
  · unfold onFrame at hwork
    split at hwork <;> cases hwork
    exact .refl w

theorem faultless_onFrame {operation : Frame → Except Error (α × Frame)}
    (h : ∀ f, FailsOnly Error.isFatal (operation f)) : Faultless (onFrame operation) := by
  intro w e w' hwork
  unfold onFrame at hwork
  split at hwork <;> cases hwork
  next heq => exact h w.frame _ heq

theorem faultless_change (f : Frame → Frame) : Faultless (change f) := by
  intro w e w' h
  cases h

theorem faultless_changeHeap (f : Heap → Heap × α) : Faultless (changeHeap f) := by
  intro w e w' h
  cases h

theorem spares_pop : Spares pop := by
  refine spares_onFrame fun f r h => ?_
  obtain ⟨hstack, hframe⟩ := f.pop_spec r h
  exact ⟨r.2.stack, hstack ▸ List.suffix_cons _ _, hframe⟩

theorem spares_popTwo : Spares popTwo :=
  spares_pop.bind fun _ => spares_pop.bind fun _ => spares_pure _

theorem spares_popArgs (count : Nat) : Spares (popArgs count) := by
  refine spares_onFrame fun f r h => ?_
  obtain ⟨-, hstack, hframe⟩ := f.popArgs_spec count r h
  exact ⟨r.2.stack, hstack ▸ List.suffix_append _ _, hframe⟩

theorem faultless_popArgs (count : Nat) : Faultless (popArgs count) := by
  refine faultless_onFrame fun f => ?_
  unfold Frame.popArgs
  split
  · exact .error rfl
  · exact .ok _

theorem faultless_setSlot (kind : SlotKind) (index : Nat) (value : Value) :
    Faultless (onFrame fun f => (f.setSlot kind index value).map fun f => ((), f)) := by
  refine faultless_onFrame fun f => FailsOnly.map _ ?_
  unfold Frame.setSlot
  split
  · cases kind <;> exact .ok _
  · exact .error rfl

/-- A console that fails ends the run. -/
theorem faultless_intrinsic (i : Intrinsic) (args : List Value) (use : ResultUse) :
    Faultless (intrinsic i args use) := by
  have hintrinsic : Faultless (onMachine (·.intrinsic i args)) := by
    intro w e w' h
    unfold onMachine at h
    split at h <;> cases h
    next heq =>
      obtain ⟨detail, rfl⟩ := w.machine.intrinsic_fails i args (congrArg Prod.snd heq)
      rfl
  exact hintrinsic.bind fun _ => (faultless_change _).bind fun _ => faultless_pure _

theorem atomic_resolveVirtual (p : Program) (site : Token) (receiver : Handle) (name : String) (paramCount : Nat) :
    Atomic (onMachine (·.resolveVirtual p site receiver name paramCount)) := by
  intro w e w' h _
  unfold onMachine at h
  split at h <;> cases h
  next heq => exact ⟨Machine.resolveVirtual_misses heq, ⟨_, List.suffix_refl _, rfl⟩⟩

/-! ### Instructions -/

theorem atomic_goesOn {work : InPlace Unit} (h : Atomic work) : Atomic (goesOn work) :=
  h.andThen fun _ => faultless_pure _

theorem faultless_pushNext (value : Value) : Faultless (pushNext value) :=
  faultless_change _

theorem atomic_jumpTo (target : Nat) : Atomic (jumpTo target) :=
  (spares_inspect _).andThen fun _ => (faultless_change _).atomic

theorem atomic_load (kind : SlotKind) (index : Nat) : Atomic (load kind index) :=
  (spares_inspect _).andThen fun _ => (faultless_pushNext _).atomic

theorem atomic_store (kind : SlotKind) (index : Nat) : Atomic (store kind index) :=
  spares_pop.andThen fun _ => ((faultless_setSlot kind index _).bind fun _ => faultless_change _).atomic

theorem atomic_duplicate : Atomic duplicate :=
  (spares_inspect _).andThen fun _ => (faultless_pushNext _).atomic

theorem atomic_drop : Atomic drop :=
  spares_pop.andThen fun _ => (faultless_change _).atomic

theorem atomic_arithmetic (op : Arithmetic) : Atomic (arithmetic op) :=
  spares_popTwo.andThen fun _ => ((spares_ask _).andThen fun _ => (spares_ask _).andThen fun _ =>
    (spares_ask _).andThen fun _ => (faultless_pushNext _).atomic)

theorem atomic_negate : Atomic negate :=
  spares_pop.andThen fun _ => (spares_ask _).andThen fun _ => (faultless_pushNext _).atomic

theorem atomic_compare (relation : Relation) : Atomic (compare relation) :=
  spares_popTwo.andThen fun _ => (spares_ask _).andThen fun _ => (faultless_pushNext _).atomic

theorem atomic_branchOn (sense : Bool) (target : Nat) : Atomic (branchOn sense target) := by
  refine spares_pop.andThen fun condition => ?_
  split
  · exact atomic_jumpTo target
  · exact (faultless_change _).atomic

theorem atomic_branchIf (relation : Relation) (target : Nat) : Atomic (branchIf relation target) := by
  refine spares_popTwo.andThen fun r => (spares_ask _).andThen fun holds => ?_
  split
  · exact atomic_jumpTo target
  · exact (faultless_change _).atomic

theorem atomic_leave (target : Nat) : Atomic (leave target) :=
  (atomic_jumpTo target).andThen fun _ => faultless_change _

theorem atomic_loadString (p : Program) (token : Token) : Atomic (loadString p token) :=
  (spares_ask _).andThen fun _ => (faultless_pushNext _).atomic

theorem atomic_loadField (p : Program) (field : Token) : Atomic (loadField p field) :=
  (spares_ask _).andThen fun _ => spares_pop.andThen fun _ => (spares_ask _).andThen fun _ =>
    (spares_inspect _).andThen fun _ => (faultless_pushNext _).atomic

/-- A field is there before it is written. -/
theorem atomic_writeField (h : Handle) (key : String) (value : Value) : Atomic (writeField h key value) := by
  refine (spares_inspect _).andThen fun o => ?_
  split
  · exact (spares_throw _).atomic
  · refine ((faultless_changeHeap _).bind fun _ => ?_).atomic
    split
    · exact faultless_changeHeap _
    · exact faultless_pure _

theorem atomic_storeField (p : Program) (field : Token) : Atomic (storeField p field) :=
  (spares_ask _).andThen fun _ => spares_pop.andThen fun _ => spares_pop.andThen fun _ =>
    (spares_ask _).andThen fun _ => (atomic_writeField _ _ _).andThen fun _ => faultless_change _

theorem atomic_raise (p : Program) : Atomic (raise p) :=
  spares_pop.andThen fun _ => (spares_inspect _).atomic

theorem atomic_call (p : Program) (token : Token) : Atomic (call p token) := by
  unfold call
  split
  · exact (spares_ask _).andThen fun _ => (spares_popArgs _).andThen fun _ => (spares_pure _).atomic
  · refine (spares_ask _).andThen fun _ => (spares_ask _).andThen fun _ => (spares_popArgs _).andThen fun _ =>
      (spares_ask _).andThen fun i => ?_
    split
    · exact (faultless_intrinsic _ _ _).atomic
    · exact (spares_throw _).atomic
  · exact (spares_throw _).atomic

theorem atomic_callVirtual (p : Program) (token : Token) : Atomic (callVirtual p token) := by
  refine (spares_ask _).andThen fun target => ?_
  split
  · exact atomic_call p token
  · refine (spares_popArgs _).andThen fun args => (spares_ask _).andThen fun called => ?_
    split
    · exact (faultless_intrinsic _ _ _).atomic
    · exact (atomic_resolveVirtual p token _ _ _).andThen fun _ => faultless_pure _

/-- The constructor is found before the object is made. -/
theorem atomic_newObject (p : Program) (token : Token) : Atomic (newObject p token) :=
  (spares_ask _).andThen fun _ => ((faultless_changeHeap _).bind fun _ => (faultless_popArgs _).bind fun _ =>
    (faultless_change _).bind fun _ => faultless_pure _).atomic

theorem faultless_takeResult : Faultless takeResult := by
  intro w e w' h
  cases h

/-- **Every instruction is atomic.** -/
theorem atomic_perform (p : Program) (op : Operation) : Atomic (perform p op) := by
  cases op with
  | nop => exact atomic_goesOn (faultless_change _).atomic
  | endfinally => exact atomic_goesOn (faultless_change _).atomic
  | ldarg slot => exact atomic_goesOn (atomic_load _ _)
  | starg slot => exact atomic_goesOn (atomic_store _ _)
  | ldloc slot => exact atomic_goesOn (atomic_load _ _)
  | stloc slot => exact atomic_goesOn (atomic_store _ _)
  | ldnull => exact atomic_goesOn (faultless_pushNext _).atomic
  | ldc value => exact atomic_goesOn (faultless_pushNext _).atomic
  | ldstr token => exact atomic_goesOn (atomic_loadString p token)
  | dup => exact atomic_goesOn atomic_duplicate
  | pop => exact atomic_goesOn atomic_drop
  | arith op => exact atomic_goesOn (atomic_arithmetic op)
  | neg => exact atomic_goesOn atomic_negate
  | ceq => exact atomic_goesOn (atomic_compare .eq)
  | cgt => exact atomic_goesOn (atomic_compare .gt)
  | clt => exact atomic_goesOn (atomic_compare .lt)
  | br target => exact atomic_goesOn (atomic_jumpTo target)
  | brfalse target => exact atomic_goesOn (atomic_branchOn false target)
  | brtrue target => exact atomic_goesOn (atomic_branchOn true target)
  | branch relation target => exact atomic_goesOn (atomic_branchIf relation target)
  | leave target => exact atomic_goesOn (atomic_leave target)
  | ldfld field => exact atomic_goesOn (atomic_loadField p field)
  | stfld field => exact atomic_goesOn (atomic_storeField p field)
  | throw => exact atomic_goesOn (atomic_raise p)
  | call token => exact atomic_call p token
  | callvirt token => exact atomic_callVirtual p token
  | newobj token => exact atomic_newObject p token
  | ret => exact faultless_takeResult.atomic.andThen fun _ => faultless_pure _

end InPlace

namespace Machine

/-- Entering a method raises no fault. -/
theorem callWith_fatal {p : Program} {config : Config} {m m' : Machine} {a : Activation} {below : List Activation}
    {frame : Frame} {method : Token} {args : List Value} {use : ResultUse} {e : Error}
    (h : m.callWith p config a below frame method args use = .failed m' e) : e.isFatal = true := by
  unfold callWith at h
  rw [enter_eq] at h
  cases hcallee : p.calleeFrame config _ method args with
  | ok callee =>
      rw [hcallee] at h
      cases h
  | error e' =>
      rw [hcallee] at h
      cases h
      exact p.calleeFrame_fatal config _ method args _ hcallee

/-- **Faults are atomic.** An instruction that fails with an error that can be caught leaves the heap, the calls in
flight, the console and the entries of the memo as they were; only the count of look-ups that found no method may have
grown. What it has done to its frame by then is to take operands off the stack. -/
theorem faults_are_atomic (p : Program) (config : Config) {m m' : Machine} {a : Activation} {below : List Activation}
    {op : Operation} {e : Error} (h : m.perform p config a below op = .failed m' e) (he : e.isCatchable = true) :
    (∃ misses, m.dispatch.misses ≤ misses ∧ m' = { m with dispatch := { m.dispatch with misses } }) ∧
    ∃ stack, stack <:+ a.frame.stack ∧
      InPlace.perform p op ⟨a.frame, m⟩ = .error e ⟨{ a.frame with stack }, m'⟩ := by
  rw [InPlace.perform_eq] at h
  cases hwork : InPlace.perform p op ⟨a.frame, m⟩ with
  | error e' w =>
      rw [hwork] at h
      cases h
      obtain ⟨hmachine, stack, hstack, hframe⟩ := InPlace.atomic_perform p op _ _ _ hwork he
      refine ⟨hmachine, stack, hstack, ?_⟩
      rw [← hframe]
  | ok exit w =>
      rw [hwork] at h
      cases exit with
      | goesOn => cases h
      | enters method args use =>
          rw [Error.isCatchable_eq_false (callWith_fatal h)] at he
          cases he
      | returns value =>
          simp only [InPlace.outcome, deliver] at h
          split at h <;> cases h

end Machine

/-- A type without methods, and a reference to one. -/
def bellImage : Image where
  entryPoint := .ofRow .methodDef 1
  types := [{ name := "Bell" }, { name := "Program" }]
  methods := [{ owner := .ofRow .typeDef 2, name := "Main", code := [0x2A] }]
  memberRefs := [{ parent := .ofRow .typeDef 1, name := "Ring", signature := some { isInstance := true } }]

def bellProgram : Program where
  image := bellImage
  index := (Index.build bellImage).toOption.getD {}
  entryPoint := .ofRow .methodDef 1
  entrySignature := {}

/-- A call with a bell on its stack, above another value. -/
def bellCall : Activation where
  frame := { method := .ofRow .methodDef 1, code := #[⟨0, .callvirt (.ofRow .memberRef 1)⟩], regions := [], args := [],
             locals := [], stack := [.object ⟨0, 0⟩, .int 8] }
  use := .host

def bellWaiting : Machine where
  heap := (Heap.allocate {} (.ofRow .typeDef 1) "Bell" []).1
  activations := [bellCall]

/-- The machine when the call has found no method. -/
def bellMissed : Machine :=
  { bellWaiting with dispatch := { misses := 1 } }

/-- The call takes the bell off the stack and finds no method for it, which is counted. -/
theorem Machine.faults_are_atomic_bell :
    bellWaiting.perform bellProgram {} bellCall [] (.callvirt (.ofRow .memberRef 1)) =
      .failed bellMissed (.virtualNotFound "Bell" "Ring" 0) ∧
    (Error.virtualNotFound "Bell" "Ring" 0).isCatchable = true ∧
    ∃ stack, stack <:+ [.object ⟨0, 0⟩, .int 8] ∧
      InPlace.perform bellProgram (.callvirt (.ofRow .memberRef 1)) ⟨bellCall.frame, bellWaiting⟩ =
        .error (.virtualNotFound "Bell" "Ring" 0) ⟨{ bellCall.frame with stack }, bellMissed⟩ := by
  have hfails : bellWaiting.perform bellProgram {} bellCall [] (.callvirt (.ofRow .memberRef 1)) =
      .failed bellMissed (.virtualNotFound "Bell" "Ring" 0) := by cbv
  have hcatchable : (Error.virtualNotFound "Bell" "Ring" 0).isCatchable = true := by rfl
  exact ⟨hfails, hcatchable, (faults_are_atomic bellProgram {} hfails hcatchable).2⟩

end ManagedCode
