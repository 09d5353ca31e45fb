import ManagedCode.Proofs.Calls.DepthLimit

/-! The effect of an instruction on the operand stack is known before the program runs. Every operation takes a fixed
number of values off the stack and leaves a fixed number in their place. For calls both come from the signature that
the token of the instruction leads to. The callee has no say in it: it may be any target of a virtual call, and may
return with more values on its stack than one, or with none. -/

namespace ManagedCode

variable {p : Program} {config : Config}

/-! ### Effects -/

/-- How many values an operation takes off the operand stack, and how many it leaves in their place. -/
structure StackEffect where
  taken : Nat
  put : Nat
  deriving DecidableEq, Repr

/-- The signature that the token of a call leads to. -/
def Program.callSignature (p : Program) (token : Token) : Except Error Signature :=
  match token.table with
  | .methodDef => (p.index.methodInfo token).map MethodInfo.signature
  | .memberRef => do
      let member ← p.image.memberRef token
      p.memberSignature member
  | _ => .error (.callTarget token)

/-- The signature of the constructor that a token leads to. -/
def Program.constructorSignature (p : Program) (token : Token) : Except Error Signature := do
  let (constructor, _) ← p.index.resolveConstructor p.image token
  let info ← p.index.methodInfo constructor
  return info.signature

/-- The effect of a call by a signature. -/
def Signature.callEffect (s : Signature) : StackEffect :=
  ⟨s.argCount, if s.returnsVoid then 0 else 1⟩

/-- The effect of an operation, by its operand. Going out of a region has none: it leaves an empty stack. Nor have the
operations after which the call does not go on. -/
def Operation.stackEffect (p : Program) : Operation → Option StackEffect
  | .nop | .endfinally | .br _ => some ⟨0, 0⟩
  | .ldarg _ | .ldloc _ | .ldnull | .ldc _ | .ldstr _ | .dup => some ⟨0, 1⟩
  | .starg _ | .stloc _ | .pop | .brfalse _ | .brtrue _ => some ⟨1, 0⟩
  | .neg | .ldfld _ => some ⟨1, 1⟩
  | .arith _ | .ceq | .cgt | .clt => some ⟨2, 1⟩
  | .branch .. | .stfld _ => some ⟨2, 0⟩
  | .call token | .callvirt token => (p.callSignature token).toOption.map Signature.callEffect
  | .newobj token => (p.constructorSignature token).toOption.map fun s => ⟨s.paramCount, 1⟩
  | .leave _ | .throw | .ret => none

/-- The second stack is the first with the given values in the place of those that are taken, and the same below. -/
def StackEffect.Turns (effect : StackEffect) (values stack stack' : List Value) : Prop :=
  values.length = effect.put ∧
    ∃ taken rest, taken.length = effect.taken ∧ stack = taken ++ rest ∧ stack' = values ++ rest

/-- The object that an instruction makes. -/
def Machine.newInstance (p : Program) (m : Machine) (token : Token) : Except Error Handle := do
  let (_, type, _, typeName) ← Machine.newObject.resolved p token
  return (m.heap.allocate type typeName (p.index.fieldKeysOf type)).2

/-- How an operation completes: at once, or when the call that it starts has returned. -/
inductive Completion where
  | atOnce
  | afterCall (value : Option Value)

/-- What is known of the values that an operation puts on the stack: the new object, or the result of the callee, which
is null if it returned nothing. -/
def Operation.Puts (p : Program) (m : Machine) (completion : Completion) (values : List Value) : Operation → Prop
  | .newobj token => ∃ made, m.newInstance p token = .ok made ∧ values = [.object made]
  | _ => ∀ value, completion = .afterCall value → ∀ v ∈ values, v = value.getD .null

/-- What an operation that completes makes of the operand stack. -/
def Operation.Turns (p : Program) (m : Machine) (completion : Completion) (stack stack' : List Value)
    (op : Operation) : Prop :=
  (∃ target, op = .leave target) ∧ stack' = [] ∨
    ∃ effect values, op.stackEffect p = some effect ∧ effect.Turns values stack stack' ∧ op.Puts p m completion values

/-! ### Operations on a frame -/

namespace Frame

variable (f : Frame)

/-- The operation on the frame has the effect. -/
def HasEffect (effect : StackEffect) (r : Except Error Frame) : Prop :=
  Yields (fun g => ∃ values, effect.Turns values f.stack g.stack) r

theorem pop_stack : Yields (fun r => f.stack = r.1 :: r.2.stack) f.pop :=
  fun r h => (f.pop_spec r h).1

theorem popTwo_stack : Yields (fun r => f.stack = [r.2.1, r.1] ++ r.2.2.stack) f.popTwo := by
  refine f.pop_stack.bind fun r hr => r.2.pop_stack.bind fun s hs => .ok ?_
  rw [hr, hs]
  rfl

theorem popArgs_stack (count : Nat) :
    Yields (fun r => ∃ taken, taken.length = count ∧ f.stack = taken ++ r.2.stack) (f.popArgs count) := by
  intro r h
  obtain ⟨hlength, hstack, -⟩ := f.popArgs_spec count r h
  exact ⟨r.1.reverse, List.length_reverse.trans hlength, hstack⟩

theorem setSlot_stack (kind : SlotKind) (index : Nat) (v : Value) :
    Yields (fun g => g.stack = f.stack) (f.setSlot kind index v) := by
  unfold setSlot
  split
  · cases kind with
    | argument => exact .ok rfl
    | localVariable => exact .ok rfl
  · exact .error _

theorem jumpTo_stack (target : Nat) : Yields (fun g => g.stack = f.stack) (f.jumpTo target) :=
  (Yields.of_true _).bind fun _ _ => .ok rfl

theorem push_effect (v : Value) : f.HasEffect ⟨0, 1⟩ (.ok (f.push v).next) :=
  .ok ⟨[v], rfl, [], f.stack, rfl, rfl, rfl⟩

theorem next_effect : f.HasEffect ⟨0, 0⟩ (.ok f.next) :=
  .ok ⟨[], rfl, [], f.stack, rfl, rfl, rfl⟩

theorem load_effect (kind : SlotKind) (index : Nat) : f.HasEffect ⟨0, 1⟩ (f.load kind index) :=
  (Yields.of_true _).bind fun v _ => f.push_effect v

theorem store_effect (kind : SlotKind) (index : Nat) : f.HasEffect ⟨1, 0⟩ (f.store kind index) := by
  refine f.pop_stack.bind fun r hr => (r.2.setSlot_stack kind index r.1).bind fun g hg => .ok ?_
  exact ⟨[], rfl, [r.1], r.2.stack, rfl, hr, hg⟩

theorem duplicate_effect : f.HasEffect ⟨0, 1⟩ f.duplicate :=
  (Yields.of_true _).bind fun v _ => f.push_effect v

theorem drop_effect : f.HasEffect ⟨1, 0⟩ f.drop :=
  f.pop_stack.bind fun r hr => .ok ⟨[], rfl, [r.1], r.2.stack, rfl, hr, rfl⟩

theorem arithmetic_effect (op : Arithmetic) : f.HasEffect ⟨2, 1⟩ (f.arithmetic op) :=
  f.popTwo_stack.bind fun _ hr => (Yields.of_true _).bind fun _ _ => (Yields.of_true _).bind fun _ _ =>
    (Yields.of_true _).bind fun result _ => .ok ⟨[.int result], rfl, _, _, rfl, hr, rfl⟩

theorem negate_effect : f.HasEffect ⟨1, 1⟩ f.negate :=
  f.pop_stack.bind fun r hr => (Yields.of_true _).bind fun x _ =>
    .ok ⟨[.int (-x)], rfl, [r.1], r.2.stack, rfl, hr, rfl⟩

theorem compare_effect (relation : Relation) : f.HasEffect ⟨2, 1⟩ (f.compare relation) :=
  f.popTwo_stack.bind fun _ hr => (Yields.of_true _).bind fun _ _ => .ok ⟨[_], rfl, _, _, rfl, hr, rfl⟩

theorem branchOn_effect (sense : Bool) (target : Nat) : f.HasEffect ⟨1, 0⟩ (f.branchOn sense target) := by
  refine f.pop_stack.bind fun r hr => ?_
  dsimp only
  split
  · exact fun g hg => ⟨[], rfl, [r.1], r.2.stack, rfl, hr, r.2.jumpTo_stack target g hg⟩
  · exact .ok ⟨[], rfl, [r.1], r.2.stack, rfl, hr, rfl⟩

theorem branchIf_effect (relation : Relation) (target : Nat) : f.HasEffect ⟨2, 0⟩ (f.branchIf relation target) := by
  refine f.popTwo_stack.bind fun r hr => (Yields.of_true _).bind fun holds _ => ?_
  split
  · exact fun g hg => ⟨[], rfl, _, _, rfl, hr, r.2.2.jumpTo_stack target g hg⟩
  · exact .ok ⟨[], rfl, _, _, rfl, hr, rfl⟩

theorem jumpTo_effect (target : Nat) : f.HasEffect ⟨0, 0⟩ (f.jumpTo target) :=
  fun g hg => ⟨[], rfl, [], f.stack, rfl, rfl, f.jumpTo_stack target g hg⟩

theorem leave_stack (target : Nat) : Yields (fun g => g.stack = []) (f.leave target) :=
  (Yields.of_true _).bind fun _ _ => .ok rfl

end Frame

/-! ### One operation -/

/-- The caller's frame when a call that it waits for has returned. -/
def ResultUse.answer (use : ResultUse) (value : Option Value) (frame : Frame) : Frame :=
  if use = .push then (frame.push (value.getD .null)).next else frame.next

/-- What an operation of the call `a`, at the machine `m`, does to the stack of the call: it completes, or starts a call
and completes when that one returns, or ends the call. -/
inductive Outcome.Affects (p : Program) (m : Machine) (a : Activation) (below : List Activation) (op : Operation) :
    Outcome → Prop where
  | atOnce {m' : Machine} {frame : Frame} (hacts : m'.activations = { a with frame } :: below)
      (hturns : op.Turns p m .atOnce a.frame.stack frame.stack) : Affects p m a below op (.running m')
  | calls {m' : Machine} {frame callee : Frame} {use : ResultUse}
      (hacts : m'.activations = ⟨callee, use⟩ :: { a with frame } :: below)
      (hturns : ∀ value, op.Turns p m (.afterCall value) a.frame.stack (use.answer value frame).stack) :
      Affects p m a below op (.running m')
  | ends {m' : Machine} (hdepth : m'.callDepth ≤ below.length) : Affects p m a below op (.running m')
  | returned {m' : Machine} {value : Option Value} : Affects p m a below op (.returned m' value)
  | failed {m' : Machine} {e : Error} : Affects p m a below op (.failed m' e)

namespace Machine

section Operations

variable {m : Machine} {a : Activation} {below : List Activation}

theorem loadField_effect (f : Frame) (field : Token) : f.HasEffect ⟨1, 1⟩ (loadField p m f field) :=
  (Yields.of_true _).bind fun _ _ => f.pop_stack.bind fun r hr => (Yields.of_true _).bind fun _ _ =>
    (Yields.of_true _).bind fun v _ => .ok ⟨[v], rfl, [r.1], r.2.stack, rfl, hr, rfl⟩

theorem storeField_effect (f : Frame) (field : Token) :
    Yields (fun r => ∃ values, StackEffect.Turns ⟨2, 0⟩ values f.stack r.1.stack) (storeField p m f field) := by
  refine (Yields.of_true _).bind fun _ _ => f.pop_stack.bind fun r hr => r.2.pop_stack.bind fun s hs =>
    (Yields.of_true _).bind fun _ _ => (Yields.of_true _).bind fun _ _ => .ok ?_
  refine ⟨[], rfl, [r.1, s.1], s.2.stack, rfl, ?_, rfl⟩
  rw [hr, hs]
  rfl

theorem settle_affects {m₁ : Machine} {op : Operation} {r : Except Error Frame}
    (hr : Yields (fun g => op.Turns p m .atOnce a.frame.stack g.stack) r) :
    (m₁.settle a below r).Affects p m a below op := by
  cases r with
  | ok frame => exact .atOnce rfl (hr frame rfl)
  | error e => exact .failed

/-- An operation that starts no call, on the frame alone. -/
theorem settle_affects_of_effect {m₁ : Machine} {op : Operation} {effect : StackEffect} {r : Except Error Frame}
    (hop : op.isCall = false) (heffect : op.stackEffect p = some effect) (hr : a.frame.HasEffect effect r) :
    (m₁.settle a below r).Affects p m a below op := by
  refine settle_affects fun g hg => ?_
  obtain ⟨values, hturns⟩ := hr g hg
  refine .inr ⟨effect, values, heffect, hturns, ?_⟩
  cases op with
  | newobj => cases hop
  | _ => exact fun value h => nomatch h

theorem callWith_affects {m₁ : Machine} {op : Operation} {frame : Frame} {use : ResultUse}
    (hturns : ∀ value, op.Turns p m (.afterCall value) a.frame.stack (use.answer value frame).stack) (method : Token)
    (args : List Value) : (m₁.callWith p config a below frame method args use).Affects p m a below op := by
  unfold callWith
  split
  · next heq =>
    obtain ⟨callee, -, -, rfl⟩ := enter_cases heq
    exact .calls rfl hturns
  · exact .failed

/-- What a call makes of the stack, from the frame that is left with the arguments taken off. -/
theorem turns_call {op : Operation} {token : Token} (hop : op = .call token ∨ op = .callvirt token)
    {signature : Signature} (hsignature : p.callSignature token = .ok signature) {frame : Frame} {stack : List Value}
    (hpopped : ∃ taken, taken.length = signature.argCount ∧ stack = taken ++ frame.stack) {completion : Completion}
    (result : Option Value) (hresult : ∀ value, completion = .afterCall value → value = result) :
    op.Turns p m completion stack (signature.resultUse.answer result frame).stack := by
  obtain ⟨taken, htaken, hstack⟩ := hpopped
  let values : List Value := if signature.returnsVoid then [] else [result.getD .null]
  have heffect : op.stackEffect p = some signature.callEffect := by
    rcases hop with rfl | rfl <;> simp only [Operation.stackEffect, hsignature] <;> rfl
  have hputs : op.Puts p m completion values := by
    have hvalues : ∀ value, completion = .afterCall value → ∀ v ∈ values, v = value.getD .null := by
      intro value hcompletion v hv
      rw [hresult value hcompletion]
      simp only [values] at hv
      split at hv
      · cases hv
      · exact List.mem_singleton.1 hv
    rcases hop with rfl | rfl <;> exact hvalues
  refine .inr ⟨signature.callEffect, values, heffect, ⟨?_, taken, frame.stack, htaken, hstack, ?_⟩, hputs⟩
  · simp only [values, Signature.callEffect]
    split <;> rfl
  · simp only [values, Signature.resultUse, ResultUse.answer]
    split <;> rfl

theorem intrinsicWith_affects {op : Operation} {token : Token} (hop : op = .call token ∨ op = .callvirt token)
    {signature : Signature} (hsignature : p.callSignature token = .ok signature) {frame : Frame}
    (hpopped : ∃ taken, taken.length = signature.argCount ∧ a.frame.stack = taken ++ frame.stack) (i : Intrinsic)
    (args : List Value) :
    (m.intrinsicWith a below frame i args signature.resultUse).Affects p m a below op := by
  unfold intrinsicWith
  split
  · next m₁ value _ =>
    refine settle_affects (.ok ?_)
    exact turns_call hop hsignature hpopped (some value) fun _ h => nomatch h
  · exact .failed

theorem callMethod_affects {m₁ : Machine} {op : Operation} {token : Token}
    (hop : op = .call token ∨ op = .callvirt token) {signature : Signature}
    (hsignature : p.callSignature token = .ok signature) {frame : Frame}
    (hpopped : ∃ taken, taken.length = signature.argCount ∧ a.frame.stack = taken ++ frame.stack) (method : Token)
    (args : List Value) :
    (m₁.callWith p config a below frame method args signature.resultUse).Affects p m a below op := by
  refine callWith_affects (fun value => ?_) method args
  refine turns_call hop hsignature hpopped value fun value' h => ?_
  cases h
  rfl

theorem callSignature_method {token : Token} {info : MethodInfo} (htable : token.table = .methodDef)
    (hinfo : p.index.methodInfo token = .ok info) : p.callSignature token = .ok info.signature := by
  simp only [Program.callSignature, htable, hinfo]
  rfl

theorem callSignature_member {token : Token} {member : MemberRef} {signature : Signature}
    (htable : token.table = .memberRef) (hmember : p.image.memberRef token = .ok member)
    (hsignature : p.memberSignature member = .ok signature) : p.callSignature token = .ok signature := by
  simp only [Program.callSignature, htable]
  exact bind_eq_ok_iff.2 ⟨member, hmember, hsignature⟩

theorem call_affects {op : Operation} {token : Token} (hop : op = .call token ∨ op = .callvirt token) :
    (m.call p config a below token).Affects p m a below op := by
  unfold call
  split
  · next htable =>
    split
    · exact .failed
    · next info hinfo =>
      split
      · exact .failed
      · next hpop =>
        exact callMethod_affects hop (callSignature_method htable hinfo) (a.frame.popArgs_stack _ _ hpop) _ _
  · next htable =>
    split
    · exact .failed
    · next i signature args frame hmember =>
      obtain ⟨member, hrow, hmember⟩ := bind_eq_ok_iff.1 hmember
      obtain ⟨signature', hsignature, hmember⟩ := bind_eq_ok_iff.1 hmember
      obtain ⟨⟨args', frame'⟩, hpop, hmember⟩ := bind_eq_ok_iff.1 hmember
      obtain ⟨i', -, hmember⟩ := bind_eq_ok_iff.1 hmember
      have hcalled : p.callSignature token = .ok signature' := callSignature_member htable hrow hsignature
      cases i' with
      | none => cases hmember
      | some i' =>
          cases hmember
          exact intrinsicWith_affects hop hcalled (a.frame.popArgs_stack _ _ hpop) _ _
  · exact .failed

/-- The target of a virtual call has the signature that the token leads to. -/
theorem callSignature_of_virtualTarget {token : Token} {target : VirtualTarget}
    (h : p.virtualTarget token = .ok (some target)) : p.callSignature token = .ok target.signature := by
  rcases p.virtualTarget_cases h with
    ⟨info, htable, hinfo, -, rfl⟩ | ⟨member, signature, htable, hmember, hsignature, rfl⟩
  · exact callSignature_method htable hinfo
  · exact callSignature_member htable hmember hsignature

theorem callVirtual_affects (token : Token) :
    (m.callVirtual p config a below token).Affects p m a below (.callvirt token) := by
  unfold callVirtual
  split
  · exact .failed
  · exact call_affects (.inr rfl)
  · next target htarget =>
    have hsignature : p.callSignature token = .ok target.signature := callSignature_of_virtualTarget htarget
    split
    · exact .failed
    · next args frame hpop =>
      have hpopped := a.frame.popArgs_stack _ _ hpop
      split
      · exact .failed
      · exact intrinsicWith_affects (.inr rfl) hsignature hpopped _ _
      · split
        · exact .failed
        · exact callMethod_affects (.inr rfl) hsignature hpopped _ _

theorem newObject_affects (token : Token) :
    (m.newObject p config a below token).Affects p m a below (.newobj token) := by
  unfold newObject
  split
  · exact .failed
  · next constructor type signature typeName hresolved =>
    dsimp only
    split
    · exact .failed
    · next args frame hpop =>
      obtain ⟨taken, htaken, hstack⟩ := a.frame.popArgs_stack _ _ hpop
      have hmade : m.newInstance p token = .ok (m.heap.allocate type typeName (p.index.fieldKeysOf type)).2 := by
        unfold newInstance
        rw [hresolved]
        rfl
      have heffect : (Operation.newobj token).stackEffect p = some ⟨signature.paramCount, 1⟩ := by
        obtain ⟨hconstructor, info, hinfo, rfl⟩ := p.newObject_resolved_ok hresolved
        have hsignature : p.constructorSignature token = .ok info.signature :=
          bind_eq_ok_iff.2 ⟨_, hconstructor, bind_eq_ok_iff.2 ⟨info, hinfo, rfl⟩⟩
        simp only [Operation.stackEffect, hsignature]
        rfl
      refine callWith_affects (fun value => .inr ⟨_, [_], heffect, ?_, _, hmade, rfl⟩) _ _
      exact ⟨rfl, taken, frame.stack, htaken, hstack, rfl⟩

/-- **What an instruction does to the operand stack.** -/
theorem perform_affects (op : Operation) : (m.perform p config a below op).Affects p m a below op := by
  have onFrame : ∀ {m₁ : Machine} {op : Operation} {effect : StackEffect} {r : Except Error Frame},
      op.isCall = false → op.stackEffect p = some effect → a.frame.HasEffect effect r →
      (m₁.settle a below r).Affects p m a below op := settle_affects_of_effect
  cases op with
  | nop => exact onFrame rfl rfl a.frame.next_effect
  | endfinally => exact onFrame rfl rfl a.frame.next_effect
  | ldarg slot => exact onFrame rfl rfl (a.frame.load_effect _ _)
  | starg slot => exact onFrame rfl rfl (a.frame.store_effect _ _)
  | ldloc slot => exact onFrame rfl rfl (a.frame.load_effect _ _)
  | stloc slot => exact onFrame rfl rfl (a.frame.store_effect _ _)
  | ldnull => exact onFrame rfl rfl (a.frame.push_effect _)
  | ldc value => exact onFrame rfl rfl (a.frame.push_effect _)
  | ldstr token =>
      apply onFrame rfl rfl
      cases p.image.userString token with
      | error e => exact .error e
      | ok text => exact a.frame.push_effect _
  | dup => exact onFrame rfl rfl a.frame.duplicate_effect
  | pop => exact onFrame rfl rfl a.frame.drop_effect
  | arith op => exact onFrame rfl rfl (a.frame.arithmetic_effect op)
  | neg => exact onFrame rfl rfl a.frame.negate_effect
  | ceq => exact onFrame rfl rfl (a.frame.compare_effect .eq)
  | cgt => exact onFrame rfl rfl (a.frame.compare_effect .gt)
  | clt => exact onFrame rfl rfl (a.frame.compare_effect .lt)
  | br target => exact onFrame rfl rfl (a.frame.jumpTo_effect target)
  | brfalse target => exact onFrame rfl rfl (a.frame.branchOn_effect false target)
  | brtrue target => exact onFrame rfl rfl (a.frame.branchOn_effect true target)
  | branch relation target => exact onFrame rfl rfl (a.frame.branchIf_effect relation target)
  | leave target => exact settle_affects fun g hg => .inl ⟨⟨target, rfl⟩, a.frame.leave_stack target g hg⟩
  | ldfld field => exact onFrame rfl rfl (loadField_effect a.frame field)
  | stfld field =>
      unfold perform
      dsimp only
      split
      · next heq => exact onFrame rfl rfl (.ok (storeField_effect a.frame field _ heq))
      · exact .failed
  | throw =>
      unfold perform
      dsimp only
      split
      · exact .failed
      · exact .failed
  | call token => exact call_affects (.inl rfl)
  | callvirt token => exact callVirtual_affects token
  | newobj token => exact newObject_affects token
  | ret =>
      change (m.returnFrom config a below).Affects p m a below .ret
      unfold returnFrom deliver
      dsimp only
      split
      · exact .returned
      · exact .returned
      · exact .ends (Nat.le_refl _)
      · exact .ends (Nat.le_refl _)

end Operations

/-! ### Calls in flight -/

/-- A call that hands its result over by `use` is in flight directly above the calls `rest`. -/
inductive Pending (rest : List Activation) (use : ResultUse) : List Activation → Prop where
  | innermost (callee : Frame) : Pending rest use (⟨callee, use⟩ :: rest)
  | covered (b : Activation) {acts : List Activation} (h : Pending rest use acts) : Pending rest use (b :: acts)

section Pending

variable {rest : List Activation} {use : ResultUse}

theorem Pending.length_lt {acts : List Activation} (h : Pending rest use acts) : rest.length < acts.length := by
  induction h with
  | innermost callee => exact Nat.lt_succ_self _
  | covered b _ ih => exact Nat.lt_succ_of_lt ih

theorem Pending.withFrame {a : Activation} {acts : List Activation} (h : Pending rest use (a :: acts))
    (frame : Frame) : Pending rest use ({ a with frame } :: acts) := by
  cases h with
  | innermost callee => exact .innermost frame
  | covered _ h => exact .covered _ h

theorem unwind_pending {m m' : Machine} {e : Error} {acts : List Activation} (hacts : Pending rest use acts)
    (h : m.unwind p e acts = .running m') (hdepth : rest.length < m'.callDepth) :
    Pending rest use m'.activations := by
  refine (unwind_invariant (P := fun left => rest.length < left.length → Pending rest use left)
    (fun a below _ hleft hmore => ?_) (fun a below frame _ hleft hmore => ?_) (fun _ => hacts) h).1 hdepth
  · -- The caller of the pending call is no deeper than it should be, so the call itself is not passed.
    cases hleft (Nat.lt_succ_of_lt hmore) with
    | innermost callee => exact absurd hmore (Nat.lt_irrefl _)
    | covered _ hbelow => exact hbelow
  · exact (hleft hmore).withFrame frame

/-- A call whose result does not go to the host hands it over to its caller. -/
theorem deliver_running {m m' : Machine} {below : List Activation} {value : Option Value}
    (h : m.deliver use below value = .running m') :
    ∃ b rest, below = b :: rest ∧ m'.activations = { b with frame := use.answer value b.frame } :: rest := by
  cases below with
  | nil =>
      rw [deliver_nil] at h
      cases h
  | cons b rest =>
      refine ⟨b, rest, rfl, ?_⟩
      cases use <;> cases h <;> rfl

theorem step_pending {m m' : Machine} (hm : Pending rest use m.activations) (h : m.step p config = .running m')
    (hdepth : rest.length < m'.callDepth) : Pending rest use m'.activations := by
  cases hacts : m.activations with
  | nil =>
      rw [hacts] at hm
      cases hm
  | cons a below =>
      rw [hacts] at hm
      obtain ⟨move, -, hstep⟩ := step_of_activations p config hacts
      rw [hstep] at h
      cases move with
      | stays m₁ frame =>
          cases h
          exact hm.withFrame frame
      | calls m₁ frame callee use' =>
          cases h
          exact .covered _ (hm.withFrame frame)
      | fails m₁ e => exact unwind_pending hm h hdepth
      | returns m₁ value =>
          obtain ⟨b, rest', rfl, hacts'⟩ := deliver_running h
          rw [callDepth, hacts'] at hdepth
          rw [hacts']
          cases hm with
          | innermost callee => exact absurd hdepth (Nat.lt_irrefl _)
          | covered _ hm => exact hm.withFrame _

end Pending

/-! ### Instructions that complete -/

/-- The innermost call ends with the value in its next step: it is at a return, or past its last instruction. -/
inductive Ends (m : Machine) : Option Value → Prop where
  | ret {a : Activation} {below : List Activation} {i : Instruction} (hacts : m.activations = a :: below)
      (hi : a.frame.code[a.frame.ip]? = some i) (hret : i.op = .ret) : Ends m a.frame.stack.head?
  | pastEnd {a : Activation} {below : List Activation} (hacts : m.activations = a :: below)
      (hi : a.frame.code[a.frame.ip]? = none) : Ends m none

theorem Ends.step {m : Machine} {value : Option Value} (h : m.Ends value) (p : Program) (config : Config) :
    ∃ a below m₁, m.activations = a :: below ∧ m.step p config = deliver m₁ a.use below value := by
  cases h with
  | @ret a below i hacts hi hret =>
      obtain ⟨m₁, hreturn⟩ : ∃ m₁, m.returnFrom config a below = deliver m₁ a.use below a.frame.stack.head? :=
        ⟨_, returnFrom_eq config m a below⟩
      refine ⟨a, below, m₁, hacts, ?_⟩
      simp only [Machine.step, hacts, hi, hret, perform, hreturn]
      cases a.use <;> cases below <;> rfl
  | @pastEnd a below hacts hi =>
      refine ⟨a, below, m, hacts, ?_⟩
      simp only [Machine.step, hacts, hi]

/-- A call that ends with the value, directly above its caller, hands it over. -/
theorem Ends.answers {m m' : Machine} {value : Option Value} (h : m.Ends value) {b : Activation}
    {rest : List Activation} {use : ResultUse} (hpending : Pending (b :: rest) use m.activations)
    (hstep : m.step p config = .running m') (hdepth : m'.callDepth = rest.length + 1) :
    m'.activations = { b with frame := use.answer value b.frame } :: rest := by
  obtain ⟨a, below, m₁, hacts, hdeliver⟩ := h.step p config
  rw [hdeliver] at hstep
  obtain ⟨c, rest', rfl, hacts'⟩ := deliver_running hstep
  rw [hacts] at hpending
  cases hpending with
  | innermost callee => exact hacts'
  | covered _ hpending =>
      have hlt := hpending.length_lt
      rw [callDepth, hacts', List.length_cons] at hdepth
      rw [List.length_cons, List.length_cons] at hlt
      omega

/-- The instruction that the innermost call is at completes, and leaves the second machine: at once, with as many calls
in flight, or after steps with more calls in flight, the last of which ends the call that the instruction started. -/
inductive Completes (p : Program) (config : Config) (m : Machine) : Completion → Machine → Prop where
  | atOnce {a : Activation} {below : List Activation} {i : Instruction} {m' : Machine}
      (hacts : m.activations = a :: below) (hi : a.frame.code[a.frame.ip]? = some i)
      (hperform : m.perform p config a below i.op = .running m') (hdepth : m'.callDepth = m.callDepth) :
      Completes p config m .atOnce m'
  | afterCall {m₂ m' : Machine} {value : Option Value}
      (hcall : Relation.TransGen (fun x y => x.step p config = .running y ∧ m.callDepth < y.callDepth) m m₂)
      (hends : m₂.Ends value) (hreturns : m₂.step p config = .running m') (hdepth : m'.callDepth = m.callDepth) :
      Completes p config m (.afterCall value) m'

/-- While the call that an instruction started is in flight, the stack of the caller is as it is to be when the call
returns, but for its result. -/
theorem turns_of_calls {m m₁ m₂ : Machine} {a : Activation} {below : List Activation} {i : Instruction}
    (hacts : m.activations = a :: below) (hi : a.frame.code[a.frame.ip]? = some i)
    (hstep : m.step p config = .running m₁) (hstarted : m.callDepth < m₁.callDepth)
    (hruns : Relation.ReflTransGen (fun x y => x.step p config = .running y ∧ m.callDepth < y.callDepth) m₁ m₂) :
    ∃ frame use, Pending ({ a with frame } :: below) use m₂.activations ∧
      ∀ value, i.op.Turns p m (.afterCall value) a.frame.stack (use.answer value frame).stack := by
  have hcalls : m.callDepth = below.length + 1 := by rw [callDepth, hacts, List.length_cons]
  have hperform : m.perform p config a below i.op = .running m₁ := by
    simp only [step, hacts, hi] at hstep
    split at hstep
    · have hwithin := unwind_callDepth hstep
      rw [List.length_cons] at hwithin
      omega
    · exact hstep
  have haffects : (m.perform p config a below i.op).Affects p m a below i.op := perform_affects i.op
  rw [hperform] at haffects
  cases haffects with
  | @atOnce _ frame hacts' _ =>
      have hsame : m₁.callDepth = below.length + 1 := by rw [callDepth, hacts', List.length_cons]
      omega
  | ends hended => omega
  | @calls _ frame callee use hacts₁ hturns =>
      refine ⟨frame, use, ?_, hturns⟩
      induction hruns with
      | refl =>
          rw [hacts₁]
          exact .innermost callee
      | tail _ hnext ih =>
          refine step_pending ih hnext.1 ?_
          rw [List.length_cons, ← hcalls]
          exact hnext.2

/-- **The effect of an instruction on the operand stack is known from its operation.** Whatever the machine is at, and
whatever the callee does, an instruction that completes leaves the calls below as they were, and the stack of its own
call as its operation says: without the values it takes, which are on top, with as many as it puts in their place, and
the same below. A call puts the result of the callee there, or null if there is none, and an instruction that makes an
object puts the object. Only going out of a region leaves another stack, which is empty. -/
theorem static_stack_effect {m m' : Machine} {a : Activation} {below : List Activation} {i : Instruction}
    (hacts : m.activations = a :: below) (hi : a.frame.code[a.frame.ip]? = some i) {completion : Completion}
    (h : Completes p config m completion m') : ∃ frame, m'.activations = { a with frame } :: below ∧
      i.op.Turns p m completion a.frame.stack frame.stack := by
  have hcalls : m.callDepth = below.length + 1 := by rw [callDepth, hacts, List.length_cons]
  cases h with
  | @atOnce a' below' i' _ hacts' hi' hperform hdepth =>
      obtain ⟨rfl, rfl⟩ := List.cons.inj (hacts.symm.trans hacts')
      obtain rfl : i = i' := Option.some.inj (hi.symm.trans hi')
      have haffects : (m.perform p config a below i.op).Affects p m a below i.op := perform_affects i.op
      rw [hperform] at haffects
      cases haffects with
      | atOnce hacts' hturns => exact ⟨_, hacts', hturns⟩
      | calls hacts' _ =>
          rw [callDepth, hacts', List.length_cons, List.length_cons] at hdepth
          omega
      | ends hended => omega
  | @afterCall m₂ _ value hcall hends hreturns hdepth =>
      obtain ⟨m₁, ⟨hstep, hstarted⟩, hruns⟩ := Relation.TransGen.head'_iff.1 hcall
      obtain ⟨frame, use, hpending, hturns⟩ := turns_of_calls hacts hi hstep hstarted hruns
      have hanswers := hends.answers hpending hreturns (hdepth.trans hcalls)
      exact ⟨use.answer value frame, hanswers, hturns value⟩

end Machine

/-- A type with a method that returns nothing, and a reference to it that asks for a result. -/
def humImage : Image where
  entryPoint := .ofRow .methodDef 2
  types := [{ name := "Hummer" }]
  methods :=
    [{ owner := .ofRow .typeDef 1, name := "Hum", signature := { isInstance := true, returnsVoid := true },
       code := [0x2A] },
     { owner := .ofRow .typeDef 1, name := "Main", code := [0x2A] }]
  memberRefs := [{ parent := .ofRow .typeDef 1, name := "Hum", signature := some { isInstance := true } }]

def humProgram : Program where
  image := humImage
  index := (Index.build humImage).toOption.getD {}
  entryPoint := .ofRow .methodDef 2
  entrySignature := {}

/-- A machine at a virtual call by the reference, with the receiver above another value. -/
def humWaiting : Machine where
  heap := (Heap.allocate {} (.ofRow .typeDef 1) "Hummer" []).1
  activations :=
    [{ frame := { method := .ofRow .methodDef 2, code := #[⟨0, .callvirt (.ofRow .memberRef 1)⟩], regions := [],
                  args := [], locals := [], stack := [.object ⟨0, 0⟩, .int 8] },
       use := .host }]

/-- The machine in the callee. -/
def humCalled : Machine :=
  (humWaiting.step humProgram {}).machine

/-- The machine when the callee has returned. -/
def humAnswered : Machine :=
  (humCalled.step humProgram {}).machine

/-- The caller asked for a result and finds null, in the place of the receiver. -/
theorem Machine.static_stack_effect_hum : Completes humProgram {} humWaiting (.afterCall none) humAnswered ∧
    ∃ frame, humAnswered.activations = [⟨frame, .host⟩] ∧ frame.stack = [.null, .int 8] := by
  have hcall : humWaiting.step humProgram {} = .running humCalled := by cbv
  have hreturn : humCalled.step humProgram {} = .running humAnswered := by cbv
  have hdepths : humWaiting.callDepth = 1 ∧ humCalled.callDepth = 2 ∧ humAnswered.callDepth = 1 := by decide_cbv
  obtain ⟨a, b, hacts⟩ : ∃ a b, humCalled.activations = [a, b] := List.length_eq_two.1 hdepths.2.1
  have hnext : humCalled.activations.map (fun c => c.frame.code[c.frame.ip]?) =
      [some ⟨0, .ret⟩, some ⟨0, .callvirt (.ofRow .memberRef 1)⟩] := by decide_cbv
  have hstacks : humCalled.activations.map (fun c => c.frame.stack) = [[], [.int 8]] := by decide_cbv
  rw [hacts] at hnext hstacks
  simp only [List.map_cons, List.map_nil, List.cons.injEq, and_true] at hnext hstacks
  have hends : humCalled.Ends none := by
    have hret := Ends.ret hacts hnext.1 rfl
    rwa [hstacks.1] at hret
  have hcompletes : Completes humProgram {} humWaiting (.afterCall none) humAnswered := by
    refine .afterCall (.single ⟨hcall, ?_⟩) hends hreturn (hdepths.2.2.trans hdepths.1.symm)
    omega
  obtain ⟨frame, hacts', hturns⟩ := static_stack_effect (i := ⟨0, .callvirt (.ofRow .memberRef 1)⟩) rfl rfl hcompletes
  refine ⟨hcompletes, frame, hacts', ?_⟩
  have heffect : (Operation.callvirt (.ofRow .memberRef 1)).stackEffect humProgram = some ⟨1, 1⟩ := by decide_cbv
  obtain ⟨⟨target, hleave⟩, -⟩ | ⟨effect, values, heffect', ⟨hput, taken, rest, htaken, hstack, hstack'⟩, hvalues⟩ :=
    hturns
  · cases hleave
  · obtain rfl : ⟨1, 1⟩ = effect := Option.some.inj (heffect.symm.trans heffect')
    obtain ⟨v, rfl⟩ := List.length_eq_one_iff.1 hput
    obtain ⟨w, rfl⟩ := List.length_eq_one_iff.1 htaken
    obtain ⟨-, rfl⟩ := List.cons.inj hstack
    obtain rfl : v = .null := hvalues none rfl v List.mem_cons_self
    exact hstack'

end ManagedCode
