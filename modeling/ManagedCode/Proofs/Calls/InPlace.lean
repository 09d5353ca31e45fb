import ManagedCode.Machine.Step

/-! Instructions that work in place. A step leaves the frame of a failed instruction as it was, since the search for a
handler does not look at its operands. Here an instruction changes the frame and the machine as it goes, one effect
after the other, and what it has done stays done when it fails. It comes to the same as the instruction of a step, but
for that frame. -/

namespace ManagedCode

/-- What is left to do when an instruction has done its work: nothing, to enter a method, or to return. -/
inductive Exit where
  | goesOn
  | enters (method : Token) (args : List Value) (use : ResultUse)
  | returns (value : Option Value)

namespace InPlace

variable {α β : Type}

/-! ### Effects -/

/-- A question, which changes nothing. -/
def inspect (question : Workspace → Except Error α) : InPlace α := fun w =>
  match question w with
  | .ok x => .ok x w
  | .error e => .error e w

def ask (answer : Except Error α) : InPlace α :=
  inspect fun _ => answer

/-- An operation on the frame, which leaves it as it is if it fails. -/
def onFrame (operation : Frame → Except Error (α × Frame)) : InPlace α := fun w =>
  match operation w.frame with
  | .ok (x, frame) => .ok x { w with frame }
  | .error e => .error e w

/-- An operation on the machine, which may have changed it when it fails. -/
def onMachine (operation : Machine → Machine × Except Error α) : InPlace α := fun w =>
  match operation w.machine with
  | (machine, .ok x) => .ok x { w with machine }
  | (machine, .error e) => .error e { w with machine }

/-- A change of the frame. -/
def change (f : Frame → Frame) : InPlace Unit := fun w =>
  .ok () { w with frame := f w.frame }

/-- A change of the heap. -/
def changeHeap (f : Heap → Heap × α) : InPlace α := fun w =>
  .ok (f w.machine.heap).2 { w with machine := { w.machine with heap := (f w.machine.heap).1 } }

/-! ### Instructions -/

def pop : InPlace Value :=
  onFrame Frame.pop

def popTwo : InPlace (Value × Value) := do
  let b ← pop
  let a ← pop
  return (a, b)

def popArgs (count : Nat) : InPlace (List Value) :=
  onFrame (·.popArgs count)

def pushNext (value : Value) : InPlace Unit :=
  change fun f => (f.push value).next

def jumpTo (target : Nat) : InPlace Unit := do
  let index ← inspect fun w => w.frame.indexOf target
  change fun f => { f with ip := index }

def load (kind : SlotKind) (index : Nat) : InPlace Unit := do
  let value ← inspect fun w => w.frame.getSlot kind index
  pushNext value

def store (kind : SlotKind) (index : Nat) : InPlace Unit := do
  let value ← pop
  onFrame fun f => (f.setSlot kind index value).map fun f => ((), f)
  change Frame.next

def duplicate : InPlace Unit := do
  let value ← inspect fun w => w.frame.peek
  pushNext value

def drop : InPlace Unit := do
  let _ ← pop
  change Frame.next

def arithmetic (op : Arithmetic) : InPlace Unit := do
  let r ← popTwo
  let x ← ask r.1.toInt32
  let y ← ask r.2.toInt32
  let result ← ask (op.apply x y)
  pushNext (.int result)

def negate : InPlace Unit := do
  let a ← pop
  let x ← ask a.toInt32
  pushNext (.int (-x))

def compare (relation : Relation) : InPlace Unit := do
  let r ← popTwo
  let holds ← ask (relation.holds r.1 r.2)
  pushNext (.int (if holds then 1 else 0))

def branchOn (sense : Bool) (target : Nat) : InPlace Unit := do
  let condition ← pop
  if condition.isTruthy = sense then jumpTo target else change Frame.next

def branchIf (relation : Relation) (target : Nat) : InPlace Unit := do
  let r ← popTwo
  let holds ← ask (relation.holds r.1 r.2)
  if holds then jumpTo target else change Frame.next

def leave (target : Nat) : InPlace Unit := do
  jumpTo target
  change fun f => { f with stack := [] }

def loadString (p : Program) (token : Token) : InPlace Unit := do
  let text ← ask (p.image.userString token)
  pushNext (.str text)

def loadField (p : Program) (field : Token) : InPlace Unit := do
  let key ← ask (p.index.fieldKeyOf p.image field)
  let value ← pop
  let h ← ask (Machine.objectOf "ldfld" value)
  let value ← inspect fun w => w.machine.heap.readField h key
  pushNext value

/-- Changes a field that is there, and remembers its owner if need be. -/
def writeField (h : Handle) (key : String) (value : Value) : InPlace Unit := do
  let o ← inspect fun w => w.machine.heap.object h
  match o.field? key with
  | none => throw (.fieldNotPresent key o.typeName)
  | some _ =>
      changeHeap fun heap => (heap.modify h fun o => o.setField key value, ())
      match value.heapRef? with
      | some target => changeHeap fun heap => (heap.writeBarrier h target, ())
      | none => pure ()

def storeField (p : Program) (field : Token) : InPlace Unit := do
  let key ← ask (p.index.fieldKeyOf p.image field)
  let value ← pop
  let owner ← pop
  let h ← ask (Machine.objectOf "stfld" owner)
  writeField h key value
  change Frame.next

def raise (p : Program) : InPlace Unit := do
  let value ← pop
  inspect fun w => .error (w.machine.raise p value)

def intrinsic (i : Intrinsic) (args : List Value) (use : ResultUse) : InPlace Exit := do
  let value ← onMachine (·.intrinsic i args)
  change fun f => if use = .push then (f.push value).next else f.next
  return .goesOn

def call (p : Program) (token : Token) : InPlace Exit :=
  match token.table with
  | .methodDef => do
      let info ← ask (p.index.methodInfo token)
      let args ← popArgs info.signature.argCount
      return .enters token args info.signature.resultUse
  | .memberRef => do
      let member ← ask (p.image.memberRef token)
      let signature ← ask (p.memberSignature member)
      let args ← popArgs signature.argCount
      match ← ask (p.intrinsicOf member) with
      | some i => intrinsic i args signature.resultUse
      | none => throw (.unsupportedCall (p.memberLabel member))
  | _ => throw (.callTarget token)

def callVirtual (p : Program) (token : Token) : InPlace Exit := do
  match ← ask (p.virtualTarget token) with
  | none => call p token
  | some target =>
      let args ← popArgs target.signature.argCount
      match ← ask (Machine.virtualCall p target args) with
      | .toIntrinsic i => intrinsic i args target.signature.resultUse
      | .toMethod receiver =>
          let method ← onMachine (·.resolveVirtual p token receiver target.name target.signature.paramCount)
          return .enters method args target.signature.resultUse

def newObject (p : Program) (token : Token) : InPlace Exit := do
  let r ← ask (Machine.newObject.resolved p token)
  let made ← changeHeap fun heap => heap.allocate r.2.1 r.2.2.2 (p.index.fieldKeysOf r.2.1)
  let args ← popArgs r.2.2.1.paramCount
  change (·.push (.object made))
  return .enters r.1 (.object made :: args) .discard

/-- Takes the value off the stack that is returned, if there is one. -/
def takeResult : InPlace (Option Value) := fun w =>
  .ok w.frame.stack.head? { w with frame := { w.frame with stack := w.frame.stack.tail } }

def goesOn (work : InPlace Unit) : InPlace Exit := do
  work
  return .goesOn

/-- Performs an operation in place. -/
def perform (p : Program) : Operation → InPlace Exit
  | .nop | .endfinally => goesOn (change Frame.next)
  | .ldarg slot => goesOn (load .argument slot.toNat)
  | .starg slot => goesOn (store .argument slot.toNat)
  | .ldloc slot => goesOn (load .localVariable slot.toNat)
  | .stloc slot => goesOn (store .localVariable slot.toNat)
  | .ldnull => goesOn (pushNext .null)
  | .ldc value => goesOn (pushNext (.int value))
  | .ldstr token => goesOn (loadString p token)
  | .dup => goesOn duplicate
  | .pop => goesOn drop
  | .arith op => goesOn (arithmetic op)
  | .neg => goesOn negate
  | .ceq => goesOn (compare .eq)
  | .cgt => goesOn (compare .gt)
  | .clt => goesOn (compare .lt)
  | .br target => goesOn (jumpTo target)
  | .brfalse target => goesOn (branchOn false target)
  | .brtrue target => goesOn (branchOn true target)
  | .branch relation target => goesOn (branchIf relation target)
  | .leave target => goesOn (leave target)
  | .ldfld field => goesOn (loadField p field)
  | .stfld field => goesOn (storeField p field)
  | .throw => goesOn (raise p)
  | .call token => call p token
  | .callvirt token => callVirtual p token
  | .newobj token => newObject p token
  | .ret => do
      let value ← takeResult
      return .returns value

/-- The outcome for the call `a`, once an instruction has done its work. -/
def outcome (p : Program) (config : Config) (a : Activation) (below : List Activation) :
    EStateM.Result Error Workspace Exit → Outcome
  | .ok .goesOn w => .running { w.machine with activations := { a with frame := w.frame } :: below }
  | .ok (.enters method args use) w => w.machine.callWith p config a below w.frame method args use
  | .ok (.returns value) w =>
      let m := { w.machine with activations := { a with frame := w.frame } :: below }
      let m := if config.gcEnabled then m.collectMinor (config.visiting m.heap) value else m
      m.deliver a.use below value
  | .error e w => .failed w.machine e

/-! ### The two ways to work -/

section Follows

variable {m : Machine} {f : Frame}

/-- The computation in place gives the result, and the frame, that are read off the answer of the other one, and leaves
the machine. If the other one fails, it fails with the same error, and has changed the frame at most. -/
def Follows (m : Machine) (f : Frame) (result : β → α) (frame : β → Frame) (work : InPlace α) (r : Except Error β) :
    Prop :=
  match r with
  | .ok x => work ⟨f, m⟩ = .ok (result x) ⟨frame x, m⟩
  | .error e => ∃ f', work ⟨f, m⟩ = .error e ⟨f', m⟩

/-- A computation in place that gives no result, and one that gives a frame. -/
abbrev Works (m : Machine) (f : Frame) (work : InPlace Unit) (r : Except Error Frame) : Prop :=
  Follows m f (fun _ => ()) id work r

theorem Follows.bind {α' β' : Type} {result : β → α} {frame : β → Frame} {result' : β' → α'} {frame' : β' → Frame}
    {work : InPlace α} {r : Except Error β} {rest : α → InPlace α'} {s : β → Except Error β'}
    (h : Follows m f result frame work r) (hrest : ∀ x, Follows m (frame x) result' frame' (rest (result x)) (s x)) :
    Follows m f result' frame' (work >>= rest) (r >>= s) := by
  cases r with
  | error e =>
      obtain ⟨f', hwork⟩ := h
      refine ⟨f', ?_⟩
      simp only [Bind.bind, EStateM.bind, hwork]
  | ok x =>
      have hwork : work ⟨f, m⟩ = .ok (result x) ⟨frame x, m⟩ := h
      have hnext := hrest x
      simp only [Follows, Bind.bind, EStateM.bind, Except.bind, hwork] at hnext ⊢
      exact hnext

theorem follows_inspect (question : Workspace → Except Error α) :
    Follows m f id (fun _ => f) (inspect question) (question ⟨f, m⟩) := by
  unfold Follows inspect
  cases question ⟨f, m⟩ with
  | error e => exact ⟨f, rfl⟩
  | ok x => rfl

theorem follows_ask (answer : Except Error α) : Follows m f id (fun _ => f) (ask answer) answer :=
  follows_inspect fun _ => answer

theorem follows_onFrame (operation : Frame → Except Error (α × Frame)) :
    Follows m f Prod.fst Prod.snd (onFrame operation) (operation f) := by
  unfold Follows onFrame
  dsimp only
  cases operation f with
  | error e => exact ⟨f, rfl⟩
  | ok r => rfl

theorem follows_pop : Follows m f Prod.fst Prod.snd pop f.pop :=
  follows_onFrame Frame.pop

theorem follows_popTwo : Follows m f (fun r => (r.1, r.2.1)) (fun r => r.2.2) popTwo f.popTwo :=
  follows_pop.bind fun _ => follows_pop.bind fun _ => rfl

theorem works_change (g : Frame → Frame) : Works m f (change g) (.ok (g f)) :=
  rfl

theorem works_jumpTo (target : Nat) : Works m f (jumpTo target) (f.jumpTo target) :=
  (follows_inspect _).bind fun _ => works_change _

theorem works_load (kind : SlotKind) (index : Nat) : Works m f (load kind index) (f.load kind index) :=
  (follows_inspect _).bind fun _ => works_change _

theorem works_store (kind : SlotKind) (index : Nat) : Works m f (store kind index) (f.store kind index) := by
  refine follows_pop.bind fun r => ?_
  have hset : Works m r.2 (onFrame fun f => (f.setSlot kind index r.1).map fun f => ((), f))
      (r.2.setSlot kind index r.1) := by
    unfold Works Follows onFrame
    dsimp only
    cases r.2.setSlot kind index r.1 with
    | error e => exact ⟨_, rfl⟩
    | ok g => rfl
  exact hset.bind fun _ => works_change _

theorem works_duplicate : Works m f duplicate f.duplicate :=
  (follows_inspect _).bind fun _ => works_change _

theorem works_drop : Works m f drop f.drop :=
  follows_pop.bind fun _ => works_change _

theorem works_arithmetic (op : Arithmetic) : Works m f (arithmetic op) (f.arithmetic op) :=
  follows_popTwo.bind fun _ => (follows_ask _).bind fun _ => (follows_ask _).bind fun _ =>
    (follows_ask _).bind fun _ => works_change _

theorem works_negate : Works m f negate f.negate :=
  follows_pop.bind fun _ => (follows_ask _).bind fun _ => works_change _

theorem works_compare (relation : Relation) : Works m f (compare relation) (f.compare relation) :=
  follows_popTwo.bind fun _ => (follows_ask _).bind fun _ => works_change _

theorem works_branchOn (sense : Bool) (target : Nat) : Works m f (branchOn sense target) (f.branchOn sense target) := by
  refine follows_pop.bind fun r => ?_
  dsimp only
  split
  · exact works_jumpTo target
  · exact works_change _

theorem works_branchIf (relation : Relation) (target : Nat) :
    Works m f (branchIf relation target) (f.branchIf relation target) := by
  refine follows_popTwo.bind fun r => (follows_ask _).bind fun holds => ?_
  dsimp only [id]
  split
  · exact works_jumpTo target
  · exact works_change _

theorem works_leave (target : Nat) : Works m f (leave target) (f.leave target) :=
  (works_jumpTo target).bind fun _ => works_change _

theorem works_loadString (p : Program) (token : Token) :
    Works m f (loadString p token) ((p.image.userString token).map fun text => (f.push (.str text)).next) := by
  have hwork : Works m f (loadString p token)
      (p.image.userString token >>= fun text => .ok (f.push (.str text)).next) :=
    (follows_ask _).bind fun _ => works_change _
  cases htext : p.image.userString token <;> rwa [htext] at hwork

theorem works_loadField (p : Program) (field : Token) :
    Works m f (loadField p field) (Machine.loadField p m f field) :=
  (follows_ask _).bind fun _ => follows_pop.bind fun _ => (follows_ask _).bind fun _ =>
    (follows_inspect _).bind fun _ => works_change _

end Follows

section Outcomes

variable {p : Program} {config : Config} {m : Machine} {a : Activation} {below : List Activation}

theorem outcome_goesOn {work : InPlace Unit} {r : Except Error Frame} (h : Works m a.frame work r) :
    m.settle a below r = outcome p config a below (goesOn work ⟨a.frame, m⟩) := by
  unfold goesOn
  cases r with
  | error e =>
      obtain ⟨f', hwork⟩ := h
      simp only [Bind.bind, EStateM.bind, hwork]
      rfl
  | ok frame =>
      have hwork : work ⟨a.frame, m⟩ = .ok () ⟨frame, m⟩ := h
      simp only [Bind.bind, EStateM.bind, hwork]
      rfl

theorem writeField_eq (f : Frame) (h : Handle) (key : String) (value : Value) : writeField h key value ⟨f, m⟩ =
    match m.heap.writeField h key value with
    | .ok heap => .ok () ⟨f, { m with heap }⟩
    | .error e => .error e ⟨f, m⟩ := by
  unfold writeField Heap.writeField inspect
  simp only [Bind.bind, EStateM.bind]
  cases m.heap.object h with
  | error e => rfl
  | ok o =>
      dsimp only [Except.bind]
      cases o.field? key with
      | none => rfl
      | some current => cases value.heapRef? <;> rfl

theorem storeField_eq (field : Token) : m.perform p config a below (.stfld field) =
    outcome p config a below (goesOn (storeField p field) ⟨a.frame, m⟩) := by
  simp only [Machine.perform, Machine.storeField, goesOn, storeField, ask, inspect, pop, onFrame, Bind.bind,
    EStateM.bind, Except.bind]
  cases p.index.fieldKeyOf p.image field with
  | error e => rfl
  | ok key =>
      dsimp only
      cases a.frame.pop with
      | error e => rfl
      | ok r =>
          dsimp only
          cases r.2.pop with
          | error e => rfl
          | ok s =>
              dsimp only
              cases Machine.objectOf "stfld" s.1 with
              | error e => rfl
              | ok h =>
                  dsimp only
                  rw [writeField_eq]
                  cases m.heap.writeField h key r.1 <;> rfl

theorem intrinsic_eq (f : Frame) (i : Intrinsic) (args : List Value) (use : ResultUse) :
    m.intrinsicWith a below f i args use = outcome p config a below (intrinsic i args use ⟨f, m⟩) := by
  unfold Machine.intrinsicWith intrinsic onMachine
  simp only [Bind.bind, EStateM.bind]
  rcases m.intrinsic i args with ⟨m', result⟩
  cases result <;> rfl

theorem call_eq (token : Token) :
    m.call p config a below token = outcome p config a below (call p token ⟨a.frame, m⟩) := by
  unfold Machine.call call
  cases token.table with
  | methodDef =>
      dsimp only
      simp only [Bind.bind, EStateM.bind, ask, inspect]
      cases p.index.methodInfo token with
      | error e => rfl
      | ok info =>
          dsimp only [popArgs, onFrame]
          cases a.frame.popArgs info.signature.argCount <;> rfl
  | memberRef =>
      dsimp only
      simp only [Machine.call.member, Bind.bind, EStateM.bind, Except.bind, ask, inspect, popArgs, onFrame]
      cases p.image.memberRef token with
      | error e => rfl
      | ok member =>
          dsimp only
          cases p.memberSignature member with
          | error e => rfl
          | ok signature =>
              dsimp only
              cases a.frame.popArgs signature.argCount with
              | error e => rfl
              | ok r =>
                  dsimp only
                  cases p.intrinsicOf member with
                  | error e => rfl
                  | ok i =>
                      cases i with
                      | none => rfl
                      | some i => exact intrinsic_eq r.2 i r.1 signature.resultUse
  | _ => rfl

theorem callVirtual_eq (token : Token) :
    m.callVirtual p config a below token = outcome p config a below (callVirtual p token ⟨a.frame, m⟩) := by
  simp only [Machine.callVirtual, callVirtual, Bind.bind, EStateM.bind, ask, inspect]
  cases p.virtualTarget token with
  | error e => rfl
  | ok target =>
      cases target with
      | none => exact call_eq token
      | some target =>
          dsimp only [EStateM.bind, popArgs, onFrame]
          cases a.frame.popArgs target.signature.argCount with
          | error e => rfl
          | ok r =>
              dsimp only
              cases Machine.virtualCall p target r.1 with
              | error e => rfl
              | ok called =>
                  cases called with
                  | toIntrinsic i => exact intrinsic_eq r.2 i r.1 target.signature.resultUse
                  | toMethod receiver =>
                      dsimp only [EStateM.bind, inspect, onMachine]
                      rcases m.resolveVirtual p token receiver target.name target.signature.paramCount with
                        ⟨m', method⟩
                      cases method <;> rfl

theorem newObject_eq (token : Token) :
    m.newObject p config a below token = outcome p config a below (newObject p token ⟨a.frame, m⟩) := by
  simp only [Machine.newObject, newObject, Bind.bind, EStateM.bind, ask, inspect, popArgs, onFrame]
  cases Machine.newObject.resolved p token with
  | error e => rfl
  | ok r =>
      dsimp only [changeHeap]
      cases a.frame.popArgs r.2.2.1.paramCount <;> rfl

/-- **An instruction in place does what the instruction of a step does**, to the machine, and to the frame unless it
fails. -/
theorem perform_eq (p : Program) (config : Config) (m : Machine) (a : Activation) (below : List Activation)
    (op : Operation) : m.perform p config a below op = outcome p config a below (perform p op ⟨a.frame, m⟩) := by
  cases op with
  | nop => rfl
  | endfinally => rfl
  | ldarg slot => exact outcome_goesOn (works_load _ _)
  | starg slot => exact outcome_goesOn (works_store _ _)
  | ldloc slot => exact outcome_goesOn (works_load _ _)
  | stloc slot => exact outcome_goesOn (works_store _ _)
  | ldnull => rfl
  | ldc value => rfl
  | ldstr token => exact outcome_goesOn (works_loadString p token)
  | dup => exact outcome_goesOn works_duplicate
  | pop => exact outcome_goesOn works_drop
  | arith op => exact outcome_goesOn (works_arithmetic op)
  | neg => exact outcome_goesOn works_negate
  | ceq => exact outcome_goesOn (works_compare _)
  | cgt => exact outcome_goesOn (works_compare _)
  | clt => exact outcome_goesOn (works_compare _)
  | br target => exact outcome_goesOn (works_jumpTo target)
  | brfalse target => exact outcome_goesOn (works_branchOn false target)
  | brtrue target => exact outcome_goesOn (works_branchOn true target)
  | branch relation target => exact outcome_goesOn (works_branchIf relation target)
  | leave target => exact outcome_goesOn (works_leave target)
  | ldfld field => exact outcome_goesOn (works_loadField p field)
  | stfld field => exact storeField_eq field
  | throw =>
      simp only [Machine.perform, perform, goesOn, raise, pop, onFrame, inspect, Bind.bind, EStateM.bind]
      cases a.frame.pop <;> rfl
  | call token => exact call_eq token
  | callvirt token => exact callVirtual_eq token
  | newobj token => exact newObject_eq token
  | ret => rfl

end Outcomes

end InPlace
end ManagedCode
