import ManagedCode.Proofs.Calls.Moves

/-! What an instruction can fail with. Its own failures are errors of operands, slots, jumps, names, handles and the
console, and faults that it throws. That a call stack is full, or that a method takes another number of arguments, can
only be found on entering a method; the search for a handler finds neither. -/

namespace ManagedCode

/-- The errors that a call can meet by itself, without entering another. -/
def Error.isInner : Error → Bool
  | .arityMismatch .. | .stackOverflow _ | .unsupportedEntryPoint _ | .image _ => false
  | _ => true

theorem FailsOnly.inner_of_lookup {α : Type} {x : Except Error α} (h : FailsOnly Error.isLookup x) :
    FailsOnly Error.isInner x :=
  h.mono fun e he => by cases e <;> first | rfl | cases he

theorem FailsOnly.inner_of_operand {α : Type} {x : Except Error α} (h : FailsOnly Error.isOperand x) :
    FailsOnly Error.isInner x :=
  h.mono fun e he => by cases e <;> first | rfl | cases he

theorem Error.isInner_of_isMetadata {e : Error} (h : e.isMetadata = true) : e.isInner = true := by
  cases e <;> first | rfl | cases h

theorem Error.isInner_of_isBody {e : Error} (h : e.isBody = true) : e.isInner = true := by
  cases e <;> first | rfl | cases h

/-! ### Operations on a frame -/

namespace Frame

variable (f : Frame)

theorem pop_fails : FailsOnly Error.isInner f.pop := by
  unfold pop
  split
  · exact .ok _
  · exact .error rfl

theorem popTwo_fails : FailsOnly Error.isInner f.popTwo :=
  f.pop_fails.bind fun r _ => r.2.pop_fails.bind fun _ _ => .ok _

theorem popArgs_fails (count : Nat) : FailsOnly Error.isInner (f.popArgs count) := by
  unfold popArgs
  split
  · exact .error rfl
  · exact .ok _

theorem duplicate_fails : FailsOnly Error.isInner f.duplicate := by
  refine FailsOnly.bind ?_ fun _ _ => .ok _
  unfold peek
  split
  · exact .ok _
  · exact .error rfl

theorem drop_fails : FailsOnly Error.isInner f.drop :=
  f.pop_fails.bind fun _ _ => .ok _

theorem load_fails (kind : SlotKind) (index : Nat) : FailsOnly Error.isInner (f.load kind index) := by
  refine FailsOnly.bind ?_ fun _ _ => .ok _
  unfold getSlot
  split
  · exact .ok _
  · exact .error rfl

theorem store_fails (kind : SlotKind) (index : Nat) : FailsOnly Error.isInner (f.store kind index) := by
  refine f.pop_fails.bind fun r _ => FailsOnly.bind ?_ fun _ _ => .ok _
  unfold setSlot
  split
  · cases kind <;> exact .ok _
  · exact .error rfl

theorem arithmetic_fails (op : Arithmetic) : FailsOnly Error.isInner (f.arithmetic op) :=
  f.popTwo_fails.bind fun r _ =>
    r.1.toInt32_fails.inner_of_operand.bind fun x _ =>
    r.2.1.toInt32_fails.inner_of_operand.bind fun y _ =>
    (op.apply_fails x y).inner_of_operand.bind fun _ _ => .ok _

theorem negate_fails : FailsOnly Error.isInner f.negate :=
  f.pop_fails.bind fun r _ => r.1.toInt32_fails.inner_of_operand.bind fun _ _ => .ok _

theorem compare_fails (relation : Relation) : FailsOnly Error.isInner (f.compare relation) :=
  f.popTwo_fails.bind fun r _ => (relation.holds_fails r.1 r.2.1).inner_of_operand.bind fun _ _ => .ok _

theorem indexOf_fails (target : Nat) : FailsOnly Error.isInner (f.indexOf target) := by
  unfold indexOf
  split
  · exact .ok _
  · exact .error rfl

theorem jumpTo_fails (target : Nat) : FailsOnly Error.isInner (f.jumpTo target) :=
  (f.indexOf_fails target).bind fun _ _ => .ok _

theorem branchOn_fails (sense : Bool) (target : Nat) : FailsOnly Error.isInner (f.branchOn sense target) := by
  refine f.pop_fails.bind fun r _ => ?_
  dsimp only
  split
  · exact r.2.jumpTo_fails target
  · exact .ok _

theorem branchIf_fails (relation : Relation) (target : Nat) :
    FailsOnly Error.isInner (f.branchIf relation target) := by
  refine f.popTwo_fails.bind fun r _ => (relation.holds_fails r.1 r.2.1).inner_of_operand.bind fun holds _ => ?_
  split
  · exact r.2.2.jumpTo_fails target
  · exact .ok _

theorem leave_fails (target : Nat) : FailsOnly Error.isInner (f.leave target) :=
  (f.jumpTo_fails target).bind fun _ _ => .ok _

theorem handlerAmong_fails (p : Program) (fault : Fault) (regions : List Region) :
    FailsOnly Error.isInner (f.handlerAmong p fault regions) := by
  induction regions with
  | nil => exact .ok _
  | cons r rest ih =>
      rw [handlerAmong]
      refine (p.catches_fails fault r).inner_of_lookup.bind fun taken _ => ?_
      cases taken with
      | true => exact (f.indexOf_fails r.handlerOffset.toNat).bind fun _ _ => .ok _
      | false => exact ih

/-- A frame that does not handle an error passes it on, or an error of its own in its place. -/
theorem answer_passes {p : Program} {f : Frame} {e e' : Error} (h : f.answer p e = .passes e') :
    e' = e ∨ e'.isInner = true := by
  unfold answer answerAt at h
  split at h
  · cases h
    exact Or.inl rfl
  · next fault _ =>
    have hhandler := f.handlerAmong_fails p fault (f.candidates f.currentOffset)
    split at h
    · cases h
    · cases h
      exact Or.inl rfl
    · next heq =>
      cases h
      exact Or.inr (hhandler _ heq)

end Frame

/-! ### Operations of a machine -/

theorem Heap.object_fails (heap : Heap) (h : Handle) : FailsOnly Error.isInner (heap.object h) := by
  unfold object
  split
  · exact .ok _
  · exact .error rfl

theorem Heap.readField_fails (heap : Heap) (h : Handle) (key : String) :
    FailsOnly Error.isInner (heap.readField h key) := by
  refine (heap.object_fails h).bind fun o _ => ?_
  split
  · exact .ok _
  · exact .error rfl

theorem Heap.writeField_fails (heap : Heap) (h : Handle) (key : String) (value : Value) :
    FailsOnly Error.isInner (heap.writeField h key value) := by
  refine (heap.object_fails h).bind fun o _ => ?_
  split
  · exact .error rfl
  · split <;> exact .ok _

theorem Program.frameFor_fails {kind : Error → Bool} (hmetadata : ∀ e : Error, e.isMetadata = true → kind e = true)
    (hbody : ∀ e : Error, e.isBody = true → kind e = true) (p : Program) (config : Config) (method : Token)
    (signature : Signature) (args : List Value) : FailsOnly kind (p.frameFor config method signature args) := by
  refine ((p.image.method_metadata method).mono hmetadata).bind fun m _ => ?_
  dsimp only
  split
  · exact ((verifiedBody_fails signature m).mono hbody).bind fun _ _ => .ok _
  · exact ((decode_fails m.code).mono hbody).bind fun _ _ => .ok _

/-- Entering a method when `depth` calls are in flight fails by itself, for the number of arguments, or because there
are as many calls as there may be. -/
theorem Program.calleeFrame_fails (p : Program) (config : Config) {depth : Nat} {method : Token} {args : List Value}
    {e : Error} (h : p.calleeFrame config depth method args = .error e) :
    e.isInner = true ∨
      (∃ info, p.index.methodInfo method = .ok info ∧ args.length ≠ info.signature.argCount ∧
        e = .arityMismatch info.name info.signature.argCount args.length) ∨
      e = .stackOverflow config.maxCallDepth ∧ config.maxCallDepth ≤ depth := by
  unfold calleeFrame at h
  have hinfo := p.index.methodInfo_fails method
  cases hmethod : p.index.methodInfo method with
  | error e' =>
      rw [hmethod] at h
      cases h
      exact Or.inl (hinfo.inner_of_lookup _ hmethod)
  | ok info =>
      rw [hmethod] at h
      change (if _ then _ else if _ then _ else _) = _ at h
      split at h
      · next hargs =>
        cases h
        exact Or.inr (Or.inl ⟨info, rfl, hargs, rfl⟩)
      · split at h
        · next hdepth =>
          cases h
          exact Or.inr (Or.inr ⟨rfl, hdepth⟩)
        · exact Or.inl (p.frameFor_fails (fun _ => Error.isInner_of_isMetadata) (fun _ => Error.isInner_of_isBody)
            config method info.signature args e h)

/-- No error of entering a method can be caught. -/
theorem Program.calleeFrame_fatal (p : Program) (config : Config) (depth : Nat) (method : Token) (args : List Value) :
    FailsOnly Error.isFatal (p.calleeFrame config depth method args) := by
  refine ((p.index.methodInfo_metadata method).mono fun _ => Error.isFatal_of_isMetadata).bind fun info _ => ?_
  split
  · exact .error rfl
  · split
    · exact .error rfl
    · exact p.frameFor_fails (fun _ => Error.isFatal_of_isMetadata) (fun _ => Error.isFatal_of_isBody) config method
        info.signature args

/-- If the instruction fails, then by itself. -/
def Outcome.FailsInner : Outcome → Prop
  | .failed _ e => e.isInner = true
  | _ => True

/-- If the instruction fails, then by itself or on entering a method with `depth` calls in flight. -/
def Outcome.FailsInside (p : Program) (config : Config) (depth : Nat) : Outcome → Prop
  | .failed _ e => e.isInner = true ∨ ∃ method args, p.calleeFrame config depth method args = .error e
  | _ => True

theorem Outcome.FailsInner.inside {outcome : Outcome} (h : outcome.FailsInner) (p : Program) (config : Config)
    (depth : Nat) : outcome.FailsInside p config depth := by
  cases outcome with
  | failed m e => exact Or.inl h
  | _ => exact trivial

namespace Machine

variable {p : Program} {config : Config} (m : Machine) (a : Activation) (below : List Activation)

theorem settle_inner {r : Except Error Frame} (hr : FailsOnly Error.isInner r) :
    (m.settle a below r).FailsInner := by
  cases r with
  | ok frame => exact trivial
  | error e => exact hr e rfl

theorem objectOf_fails (instruction : String) (v : Value) : FailsOnly Error.isInner (objectOf instruction v) := by
  unfold objectOf
  split
  · exact .ok _
  · exact .error rfl

theorem loadField_fails (f : Frame) (field : Token) : FailsOnly Error.isInner (loadField p m f field) :=
  (p.index.fieldKeyOf_fails p.image field).inner_of_lookup.bind fun key _ =>
    f.pop_fails.bind fun r _ => (objectOf_fails _ r.1).bind fun h _ =>
    (m.heap.readField_fails h key).bind fun _ _ => .ok _

theorem storeField_fails (f : Frame) (field : Token) : FailsOnly Error.isInner (storeField p m f field) :=
  (p.index.fieldKeyOf_fails p.image field).inner_of_lookup.bind fun key _ =>
    f.pop_fails.bind fun r _ => r.2.pop_fails.bind fun s _ => (objectOf_fails _ s.1).bind fun h _ =>
    (m.heap.writeField_fails h key r.1).bind fun _ _ => .ok _

theorem raise_isInner (v : Value) : (raise p m v).isInner = true := by
  unfold raise
  split
  · rfl
  · rfl
  · next h =>
    have hobject := m.heap.object_fails h
    split
    · rfl
    · next heq => exact hobject _ heq
  · rfl

theorem callWith_fails (frame : Frame) (method : Token) (args : List Value) (use : ResultUse) :
    (m.callWith p config a below frame method args use).FailsInside p config (below.length + 1) := by
  unfold callWith
  rw [enter_eq]
  cases hcallee : p.calleeFrame config (below.length + 1) method args with
  | ok callee => simp [callDepth, hcallee, Except.map, Outcome.FailsInside]
  | error e =>
      simp only [callDepth, List.length_cons, hcallee, Except.map]
      exact Or.inr ⟨method, args, hcallee⟩

/-- An intrinsic fails if the console does. -/
theorem intrinsic_fails (i : Intrinsic) (args : List Value) {e : Error} (h : (m.intrinsic i args).2 = .error e) :
    ∃ detail, e = .io detail := by
  cases i with
  | concat => cases h
  | writeLine =>
      change Except.map _ (m.console.writeLine _).2 = _ at h
      cases hwrite : (m.console.writeLine (" ".intercalate (args.map m.textOf))).2 with
      | ok u =>
          rw [hwrite] at h
          cases h
      | error e' =>
          rw [hwrite] at h
          cases h
          exact Console.writeLine_fails hwrite

theorem intrinsicWith_inner (frame : Frame) (i : Intrinsic) (args : List Value) (use : ResultUse) :
    (m.intrinsicWith a below frame i args use).FailsInner := by
  unfold intrinsicWith
  split
  · exact trivial
  · next heq =>
    obtain ⟨detail, rfl⟩ := intrinsic_fails m i args (congrArg Prod.snd heq)
    exact rfl

theorem call_member_fails (token : Token) : FailsOnly Error.isInner (call.member p a token) := by
  refine (p.image.memberRef_fails token).inner_of_lookup.bind fun member _ => ?_
  refine (p.memberSignature_fails member).inner_of_lookup.bind fun signature _ => ?_
  refine (a.frame.popArgs_fails _).bind fun r _ => ?_
  refine (p.intrinsicOf_fails member).inner_of_lookup.bind fun i _ => ?_
  cases i with
  | none => exact .error rfl
  | some i => exact .ok _

theorem call_fails (token : Token) :
    (m.call p config a below token).FailsInside p config (below.length + 1) := by
  unfold call
  split
  · split
    · next heq => exact Or.inl ((p.index.methodInfo_fails token).inner_of_lookup _ heq)
    · split
      · next heq => exact Or.inl (a.frame.popArgs_fails _ _ heq)
      · exact callWith_fails m a below _ _ _ _
  · split
    · next heq => exact Or.inl (call_member_fails a token _ heq)
    · exact (intrinsicWith_inner m a below _ _ _ _).inside p config _
  · exact Or.inl rfl

theorem virtualCall_fails (target : VirtualTarget) (args : List Value) :
    FailsOnly Error.isInner (virtualCall p target args) := by
  unfold virtualCall
  split
  · exact .error rfl
  · dsimp only
    split
    · next member _ =>
      refine (p.intrinsicOf_fails member).inner_of_lookup.bind fun i _ => ?_
      split
      · exact .ok _
      · exact .ok _
      · exact .error rfl
    · refine (FailsOnly.ok _).bind fun i _ => ?_
      split
      · exact .ok _
      · exact .ok _
      · exact .error rfl

theorem resolveVirtual_fails (site : Token) (receiver : Handle) (name : String) (paramCount : Nat) :
    FailsOnly Error.isInner (m.resolveVirtual p site receiver name paramCount).2 := by
  unfold resolveVirtual
  split
  · next heq => exact .error (m.heap.object_fails receiver _ heq)
  · split
    · exact .ok _
    · split
      · exact .ok _
      · exact .error rfl

theorem callVirtual_fails (token : Token) :
    (m.callVirtual p config a below token).FailsInside p config (below.length + 1) := by
  unfold callVirtual
  split
  · next heq => exact Or.inl ((p.virtualTarget_fails token).inner_of_lookup _ heq)
  · exact call_fails m a below token
  · next target _ =>
    split
    · next heq => exact Or.inl (a.frame.popArgs_fails _ _ heq)
    · split
      · next heq => exact Or.inl (virtualCall_fails target _ _ heq)
      · exact (intrinsicWith_inner m a below _ _ _ _).inside p config _
      · next receiver _ =>
        have hmethod := resolveVirtual_fails (p := p) m token receiver target.name target.signature.paramCount
        split
        · next heq =>
          rw [heq] at hmethod
          exact Or.inl (hmethod _ rfl)
        · exact callWith_fails _ a below _ _ _ _

theorem newObject_fails (token : Token) :
    (m.newObject p config a below token).FailsInside p config (below.length + 1) := by
  have hresolved := p.newObject_resolved_fails token
  unfold newObject
  split
  · next heq => exact Or.inl (hresolved.inner_of_lookup _ heq)
  · dsimp only
    split
    · next heq => exact Or.inl (a.frame.popArgs_fails _ _ heq)
    · exact callWith_fails _ a below _ _ _ _

/-- An operation that starts no call fails by itself. -/
theorem perform_inner {op : Operation} (hop : op.isCall = false) : (m.perform p config a below op).FailsInner := by
  have onFrame : ∀ {r}, FailsOnly Error.isInner r → (m.settle a below r).FailsInner := fun hr =>
    settle_inner m a below hr
  cases op with
  | nop => exact trivial
  | endfinally => exact trivial
  | ldarg slot => exact onFrame (a.frame.load_fails _ _)
  | starg slot => exact onFrame (a.frame.store_fails _ _)
  | ldloc slot => exact onFrame (a.frame.load_fails _ _)
  | stloc slot => exact onFrame (a.frame.store_fails _ _)
  | ldnull => exact trivial
  | ldc => exact trivial
  | ldstr token => exact onFrame ((p.image.userString_fails token).inner_of_lookup.map _)
  | dup => exact onFrame a.frame.duplicate_fails
  | pop => exact onFrame a.frame.drop_fails
  | arith op => exact onFrame (a.frame.arithmetic_fails op)
  | neg => exact onFrame a.frame.negate_fails
  | ceq => exact onFrame (a.frame.compare_fails .eq)
  | cgt => exact onFrame (a.frame.compare_fails .gt)
  | clt => exact onFrame (a.frame.compare_fails .lt)
  | br target => exact onFrame (a.frame.jumpTo_fails target)
  | brfalse target => exact onFrame (a.frame.branchOn_fails false target)
  | brtrue target => exact onFrame (a.frame.branchOn_fails true target)
  | branch relation target => exact onFrame (a.frame.branchIf_fails relation target)
  | leave target => exact onFrame (a.frame.leave_fails target)
  | ldfld field => exact onFrame (loadField_fails m a.frame field)
  | stfld field =>
      unfold perform
      dsimp only
      split
      · exact trivial
      · next heq => exact storeField_fails m a.frame field _ heq
  | throw =>
      unfold perform
      dsimp only
      split
      · exact raise_isInner m _
      · next heq => exact a.frame.pop_fails _ heq
  | call token => cases hop
  | callvirt token => cases hop
  | newobj token => cases hop
  | ret =>
      change (m.returnFrom config a below).FailsInner
      unfold returnFrom deliver
      dsimp only
      split <;> exact trivial

/-- **What an instruction fails with**: an error of its own, or one of entering a method. -/
theorem perform_fails (op : Operation) :
    (m.perform p config a below op).FailsInside p config (below.length + 1) := by
  cases op with
  | call token => exact call_fails m a below token
  | callvirt token => exact callVirtual_fails m a below token
  | newobj token => exact newObject_fails m a below token
  | _ => exact (perform_inner m a below rfl).inside p config _

/-- An error that reaches the host is the one that was raised, or one that the search for a handler met. -/
theorem unwind_failed {m m' : Machine} {e e' : Error} {acts : List Activation}
    (h : m.unwind p e acts = .failed m' e') : e' = e ∨ e'.isInner = true := by
  induction acts generalizing e with
  | nil =>
      rw [unwind] at h
      cases h
      exact Or.inl rfl
  | cons a below ih =>
      rw [unwind_cons] at h
      cases hanswer : a.frame.answer p e with
      | handles fault index =>
          rw [hanswer] at h
          cases h
      | passes e₁ =>
          rw [hanswer] at h
          dsimp only at h
          have hpassed := Frame.answer_passes hanswer
          split at h
          · cases h
            exact hpassed
          · rcases ih h with rfl | hinner
            · exact hpassed
            · exact Or.inr hinner

/-- The innermost call is at the operation, which fails with the error. -/
def FailsAt (p : Program) (config : Config) (m : Machine) (op : Operation) (e : Error) : Prop :=
  ∃ a below i m', m.activations = a :: below ∧ a.frame.code[a.frame.ip]? = some i ∧ i.op = op ∧
    m.perform p config a below op = .failed m' e

/-- The error of a step is that of its instruction, or one that the search for a handler met. -/
theorem step_failed {m m' : Machine} {e : Error} (h : m.step p config = .failed m' e) :
    ∃ op e₁, m.FailsAt p config op e₁ ∧ (e = e₁ ∨ e.isInner = true) := by
  unfold step at h
  split at h
  · cases h
  · next a below hacts =>
    split at h
    · unfold deliver at h
      split at h <;> cases h
    · next i hi =>
      split at h
      · next m₁ e₁ hperform => exact ⟨i.op, e₁, ⟨a, below, i, m₁, hacts, hi, rfl, hperform⟩, unwind_failed h⟩
      · next hnot => exact absurd h (hnot _ _)

end Machine
end ManagedCode
