import ManagedCode.Proofs.CallStack
import ManagedCode.Proofs.CheckedPrograms
import Mathlib

/-! What verification buys. In a frame whose body was verified, jumps and handlers lead to instructions and slots are
there, so the only flaw of a body that running it can show is a stack without the operands that an instruction takes.
In a checked program every frame that a call starts is of this kind. There, verification before a call changes
nothing, since it succeeds. -/

namespace ManagedCode

/-- The errors that running verified bodies can end in: no jump to a place that is no instruction, no instruction that
is not known, and no flaw of a body but an operand stack with too few values. -/
def Error.isSound : Error → Bool
  | .unsupportedInstruction .. | .invalidBranchTarget .. => false
  | .malformedBody flaw => flaw.isUnderflow
  | _ => true

theorem FailsOnly.sound_of_lookup {α : Type} {x : Except Error α} (h : FailsOnly Error.isLookup x) :
    FailsOnly Error.isSound x :=
  h.mono fun e he => by cases e <;> first | rfl | cases he

theorem FailsOnly.sound_of_operand {α : Type} {x : Except Error α} (h : FailsOnly Error.isOperand x) :
    FailsOnly Error.isSound x :=
  h.mono fun e he => by cases e <;> first | rfl | cases he

namespace Frame

/-- Jumps and handlers lead to instructions of the frame, and the slots that instructions name are there. -/
structure Verified (f : Frame) : Prop where
  target : ∀ i ∈ f.code, ∀ target, i.op.target? = some target → ∃ j ∈ f.code, j.offset = target
  slot : ∀ i ∈ f.code, ∀ kind index, i.op.slot? = some (kind, index) → index < (f.slots kind).length
  handler : ∀ r ∈ f.regions, ∃ j ∈ f.code, j.offset = r.handlerOffset.toNat

theorem SameBody.verified {f f' : Frame} (h : f.SameBody f') (hf : f.Verified) : f'.Verified := by
  have hslots : ∀ kind, (f'.slots kind).length = (f.slots kind).length := by
    intro kind
    cases kind with
    | argument => exact h.args
    | localVariable => exact h.locals
  refine ⟨?_, ?_, ?_⟩
  · rw [h.code]
    exact hf.target
  · intro i hi kind index hslot
    rw [h.code] at hi
    rw [hslots]
    exact hf.slot i hi kind index hslot
  · rw [h.regions, h.code]
    exact hf.handler

theorem isBoundary_iff {code : List Instruction} {offset : Nat} :
    Verifier.isBoundary code offset = true ↔ ∃ j ∈ code, j.offset = offset := by
  simp [Verifier.isBoundary]

/-- A verified body makes a verified frame, with as many arguments as it was verified for. -/
theorem verified_start {v : Verifier} {code : List Instruction} {regions : List Region}
    (h : v.verify code regions = .ok ()) (method : Token) {args : List Value} (hargs : args.length = v.argCount) :
    (start method code regions args v.localCount).Verified := by
  have hflaw : v.flaw? code regions = none := by
    unfold Verifier.verify at h
    split at h
    · cases h
    · assumption
  rw [Verifier.flaw?, Option.or_eq_none_iff, List.findSome?_eq_none_iff, List.findSome?_eq_none_iff] at hflaw
  obtain ⟨hcode, hregions⟩ := hflaw
  refine ⟨fun i hi target htarget => ?_, fun i hi kind index hslot => ?_, fun r hr => ?_⟩
  · obtain ⟨hbad, -⟩ := Option.or_eq_none_iff.1 (hcode i (List.mem_toArray.1 hi))
    rw [Verifier.badTarget?, htarget] at hbad
    dsimp only at hbad
    split at hbad
    · next hboundary =>
      obtain ⟨j, hj, hoffset⟩ := isBoundary_iff.1 hboundary
      exact ⟨j, List.mem_toArray.2 hj, hoffset⟩
    · cases hbad
  · obtain ⟨-, hbad⟩ := Option.or_eq_none_iff.1 (hcode i (List.mem_toArray.1 hi))
    rw [Verifier.badSlot?, hslot] at hbad
    dsimp only at hbad
    split at hbad
    · next hlt =>
      cases kind with
      | argument => exact hargs.symm ▸ hlt
      | localVariable => exact (List.length_replicate ..).symm ▸ hlt
    · cases hbad
  · obtain ⟨k, hk⟩ := List.mem_iff_getElem?.1 hr
    have hbad := hregions (r, k) (List.mk_mem_zipIdx_iff_getElem?.2 hk)
    dsimp only at hbad
    unfold Verifier.badRegion? at hbad
    split at hbad
    · cases hbad
    · split at hbad
      · cases hbad
      · next hboundary =>
        rw [Bool.not_eq_true, Bool.not_eq_false'] at hboundary
        obtain ⟨j, hj, hoffset⟩ := isBoundary_iff.1 hboundary
        exact ⟨j, List.mem_toArray.2 hj, hoffset⟩

/-! ### Operations on verified frames -/

variable (f : Frame)

theorem pop_sound : FailsOnly Error.isSound f.pop := by
  unfold pop
  split
  · exact .ok _
  · exact .error rfl

theorem peek_sound : FailsOnly Error.isSound f.peek := by
  unfold peek
  split
  · exact .ok _
  · exact .error rfl

theorem popArgs_sound (count : Nat) : FailsOnly Error.isSound (f.popArgs count) := by
  unfold popArgs
  split
  · exact .error rfl
  · exact .ok _

theorem popTwo_sound : FailsOnly Error.isSound f.popTwo :=
  f.pop_sound.bind fun r _ => r.2.pop_sound.bind fun _ _ => .ok _

theorem indexOf_sound {target : Nat} (h : ∃ j ∈ f.code, j.offset = target) :
    FailsOnly Error.isSound (f.indexOf target) := by
  obtain ⟨j, hj, hoffset⟩ := h
  intro e he
  exact absurd hoffset ((indexOf_eq_error_iff.1 he).2 j hj)

theorem jumpTo_sound {target : Nat} (h : ∃ j ∈ f.code, j.offset = target) :
    FailsOnly Error.isSound (f.jumpTo target) :=
  (f.indexOf_sound h).bind fun _ _ => .ok _

theorem getSlot_sound {kind : SlotKind} {index : Nat} (h : index < (f.slots kind).length) :
    FailsOnly Error.isSound (f.getSlot kind index) := by
  unfold getSlot
  rw [List.getElem?_eq_getElem h]
  exact .ok _

theorem setSlot_sound {kind : SlotKind} {index : Nat} (h : index < (f.slots kind).length) (v : Value) :
    FailsOnly Error.isSound (f.setSlot kind index v) := by
  unfold setSlot
  rw [if_pos h]
  cases kind with
  | argument => exact .ok _
  | localVariable => exact .ok _

theorem load_sound {kind : SlotKind} {index : Nat} (h : index < (f.slots kind).length) :
    FailsOnly Error.isSound (f.load kind index) :=
  (f.getSlot_sound h).bind fun _ _ => .ok _

theorem store_sound {kind : SlotKind} {index : Nat} (h : index < (f.slots kind).length) :
    FailsOnly Error.isSound (f.store kind index) := by
  refine f.pop_sound.bind fun r hr => (r.2.setSlot_sound ?_ r.1).bind fun _ _ => .ok _
  have hbody := f.pop_sameBody r hr
  cases kind with
  | argument => exact hbody.args.symm ▸ h
  | localVariable => exact hbody.locals.symm ▸ h

theorem duplicate_sound : FailsOnly Error.isSound f.duplicate :=
  f.peek_sound.bind fun _ _ => .ok _

theorem drop_sound : FailsOnly Error.isSound f.drop :=
  f.pop_sound.bind fun _ _ => .ok _

theorem arithmetic_sound (op : Arithmetic) : FailsOnly Error.isSound (f.arithmetic op) :=
  f.popTwo_sound.bind fun r _ =>
    r.1.toInt32_fails.sound_of_operand.bind fun x _ =>
    r.2.1.toInt32_fails.sound_of_operand.bind fun y _ =>
    (op.apply_fails x y).sound_of_operand.bind fun _ _ => .ok _

theorem negate_sound : FailsOnly Error.isSound f.negate :=
  f.pop_sound.bind fun r _ => r.1.toInt32_fails.sound_of_operand.bind fun _ _ => .ok _

theorem compare_sound (relation : Relation) : FailsOnly Error.isSound (f.compare relation) :=
  f.popTwo_sound.bind fun r _ => (relation.holds_fails r.1 r.2.1).sound_of_operand.bind fun _ _ => .ok _

section Jumps

variable {target : Nat} (h : ∃ j ∈ f.code, j.offset = target)

include h

theorem branchOn_sound (sense : Bool) : FailsOnly Error.isSound (f.branchOn sense target) := by
  refine f.pop_sound.bind fun r hr => ?_
  dsimp only
  split
  · rw [← (f.pop_sameBody r hr).code] at h
    exact r.2.jumpTo_sound h
  · exact .ok _

theorem branchIf_sound (relation : Relation) : FailsOnly Error.isSound (f.branchIf relation target) := by
  refine f.popTwo_sound.bind fun r hr => (relation.holds_fails r.1 r.2.1).sound_of_operand.bind fun holds _ => ?_
  split
  · rw [← (f.popTwo_sameBody r hr).code] at h
    exact r.2.2.jumpTo_sound h
  · exact .ok _

theorem leave_sound : FailsOnly Error.isSound (f.leave target) :=
  (f.jumpTo_sound h).bind fun _ _ => .ok _

end Jumps

/-- The search for a handler ends in a lookup error at worst. -/
theorem handlerAmong_sound (p : Program) (fault : Fault) (regions : List Region)
    (h : ∀ r ∈ regions, ∃ j ∈ f.code, j.offset = r.handlerOffset.toNat) :
    FailsOnly Error.isSound (f.handlerAmong p fault regions) := by
  induction regions with
  | nil => exact .ok _
  | cons r rest ih =>
      rw [handlerAmong]
      refine (p.catches_fails fault r).sound_of_lookup.bind fun taken _ => ?_
      cases taken with
      | true => exact (f.indexOf_sound (h r List.mem_cons_self)).bind fun _ _ => .ok _
      | false => exact ih fun r' hr' => h r' (List.mem_cons_of_mem _ hr')

/-- What a verified frame passes on in place of a sound error is one. -/
theorem Verified.answer_sound {f : Frame} (hf : f.Verified) (p : Program) {e e' : Error} (he : e.isSound = true)
    (h : f.answer p e = .passes e') : e'.isSound = true := by
  unfold answer answerAt at h
  split at h
  · cases h
    exact he
  · next fault _ =>
    have hhandler := f.handlerAmong_sound p fault (f.candidates f.currentOffset) fun r hr =>
      hf.handler r (List.mem_filter.1 (List.mem_mergeSort.1 hr)).1
    split at h
    · cases h
    · cases h
      exact he
    · next heq =>
      cases h
      exact hhandler _ heq

end Frame

/-! ### Operations of a machine -/

/-- If the step fails, then with a sound error. -/
def Outcome.FailsSoundly : Outcome → Prop
  | .failed _ e => e.isSound = true
  | _ => True

/-- The calls down to the innermost call of the host run verified bodies. -/
def VerifiedToHost : List Activation → Prop
  | [] => True
  | a :: below => a.frame.Verified ∧ (a.use ≠ .host → VerifiedToHost below)

/-- A step that goes on stays in verified bodies, and one that fails has a sound error. -/
def Outcome.Safe : Outcome → Prop
  | .running m => VerifiedToHost m.activations
  | .returned _ _ => True
  | .failed _ e => e.isSound = true

namespace Machine

variable {p : Program} {config : Config} (m : Machine) (a : Activation) (below : List Activation)

theorem settle_sound {r : Except Error Frame} (hr : FailsOnly Error.isSound r) :
    (m.settle a below r).FailsSoundly := by
  cases r with
  | ok frame => exact trivial
  | error e => exact hr e rfl

theorem object_sound (heap : Heap) (h : Handle) : FailsOnly Error.isSound (heap.object h) := by
  unfold Heap.object
  split
  · exact .ok _
  · exact .error rfl

theorem objectOf_sound (instruction : String) (v : Value) : FailsOnly Error.isSound (objectOf instruction v) := by
  unfold objectOf
  split
  · exact .ok _
  · exact .error rfl

theorem fieldKeyOf_sound (field : Token) : FailsOnly Error.isSound (p.index.fieldKeyOf p.image field) :=
  (p.index.fieldKeyOf_fails p.image field).sound_of_lookup

theorem loadField_sound (f : Frame) (field : Token) : FailsOnly Error.isSound (loadField p m f field) := by
  refine (fieldKeyOf_sound field).bind fun key _ => f.pop_sound.bind fun r _ => ?_
  refine (objectOf_sound _ r.1).bind fun h _ => FailsOnly.bind ?_ fun _ _ => .ok _
  refine (object_sound m.heap h).bind fun o _ => ?_
  split
  · exact .ok _
  · exact .error rfl

theorem storeField_sound (f : Frame) (field : Token) : FailsOnly Error.isSound (storeField p m f field) := by
  refine (fieldKeyOf_sound field).bind fun key _ => f.pop_sound.bind fun r _ => r.2.pop_sound.bind fun s _ => ?_
  refine (objectOf_sound _ s.1).bind fun h _ => FailsOnly.bind ?_ fun _ _ => .ok _
  refine (object_sound m.heap h).bind fun o _ => ?_
  split
  · exact .error rfl
  · split
    · exact .ok _
    · exact .ok _

theorem raise_sound (v : Value) : (raise p m v).isSound = true := by
  unfold raise
  split
  · rfl
  · rfl
  · next h =>
    have hobject := object_sound m.heap h
    split
    · rfl
    · next heq => exact hobject _ heq
  · rfl

/-- In a checked program the frame of a call is there, and it is verified. -/
theorem frameFor_of_checked (hp : p.Checked) {method : Token} {info : MethodInfo}
    (hinfo : p.index.methodInfo method = .ok info) (args : List Value) (hargs : args.length = info.signature.argCount) :
    ∃ callee, callee.Verified ∧ ∀ config, p.frameFor config method info.signature args = .ok callee := by
  obtain ⟨row, code, hrow, hbody⟩ := hp method info hinfo
  have hverified := hbody
  unfold Program.verifiedBody at hverified
  obtain ⟨code', hdecode, hverified⟩ := bind_eq_ok_iff.1 hverified
  split at hverified
  · next hverify =>
    cases hverified
    refine ⟨.start method code row.regions args row.locals, Frame.verified_start hverify method hargs, fun config => ?_⟩
    unfold Program.frameFor
    rw [hrow]
    change (if config.verifyBodies then _ else _) = _
    split
    · rw [hbody]
      rfl
    · rw [hdecode]
      rfl
  · cases hverified

theorem Starts.verified (hp : p.Checked) {callee : Frame} (h : Starts p config callee) : callee.Verified := by
  obtain ⟨method, info, args, hinfo, hargs, hframe⟩ := h
  obtain ⟨callee', hverified, hframe'⟩ := frameFor_of_checked hp hinfo args hargs
  obtain rfl : callee = callee' := Except.ok.inj (hframe.symm.trans (hframe' config))
  exact hverified

theorem enter_sound (hp : p.Checked) (method : Token) (args : List Value) (use : ResultUse) :
    FailsOnly Error.isSound (m.enter p config method args use) := by
  refine (p.index.methodInfo_fails method).sound_of_lookup.bind fun info hinfo => ?_
  split
  · exact .error rfl
  · next hargs =>
    split
    · exact .error rfl
    · obtain ⟨callee, -, hframe⟩ := frameFor_of_checked hp hinfo args (Decidable.not_not.1 hargs)
      rw [hframe config]
      exact .ok _

theorem callWith_sound (hp : p.Checked) (frame : Frame) (method : Token) (args : List Value) (use : ResultUse) :
    (m.callWith p config a below frame method args use).FailsSoundly := by
  unfold callWith
  split
  · exact trivial
  · next heq => exact enter_sound _ hp method args use _ heq

theorem intrinsic_sound (i : Intrinsic) (args : List Value) : FailsOnly Error.isSound (m.intrinsic i args).2 := by
  cases i with
  | concat => exact .ok _
  | writeLine =>
      obtain ⟨heap, activations, dispatch, console, fresh⟩ := m
      refine FailsOnly.map (fun _ => Value.null) fun e h => ?_
      obtain ⟨detail, rfl⟩ := Console.writeLine_fails h
      rfl

theorem intrinsicWith_sound (frame : Frame) (i : Intrinsic) (args : List Value) (use : ResultUse) :
    (m.intrinsicWith a below frame i args use).FailsSoundly := by
  have hresult := m.intrinsic_sound i args
  unfold intrinsicWith
  split
  · exact trivial
  · next heq =>
    rw [heq] at hresult
    exact hresult _ rfl

theorem call_sound (hp : p.Checked) (token : Token) : (m.call p config a below token).FailsSoundly := by
  unfold call
  split
  · split
    · next heq => exact (p.index.methodInfo_fails token).sound_of_lookup _ heq
    · split
      · next heq => exact a.frame.popArgs_sound _ _ heq
      · exact callWith_sound m a below hp _ _ _ _
  · have hmember : FailsOnly Error.isSound (call.member p a token) := by
      refine (p.image.memberRef_fails token).sound_of_lookup.bind fun member _ => ?_
      refine (p.memberSignature_fails member).sound_of_lookup.bind fun signature _ => ?_
      refine (a.frame.popArgs_sound _).bind fun r _ => ?_
      refine (p.intrinsicOf_fails member).sound_of_lookup.bind fun i _ => ?_
      cases i with
      | none => exact .error rfl
      | some i => exact .ok _
    split
    · next heq => exact hmember _ heq
    · exact intrinsicWith_sound m a below _ _ _ _
  · exact rfl

theorem virtualCall_sound (target : VirtualTarget) (args : List Value) :
    FailsOnly Error.isSound (virtualCall p target args) := by
  unfold virtualCall
  split
  · exact .error rfl
  · dsimp only
    split
    · next member _ =>
      refine (p.intrinsicOf_fails member).sound_of_lookup.bind fun i _ => ?_
      split
      · exact .ok _
      · exact .ok _
      · exact .error rfl
    · refine (FailsOnly.ok _).bind fun i _ => ?_
      split
      · exact .ok _
      · exact .ok _
      · exact .error rfl

theorem resolveVirtual_sound (site : Token) (receiver : Handle) (name : String) (paramCount : Nat) :
    FailsOnly Error.isSound (m.resolveVirtual p site receiver name paramCount).2 := by
  unfold resolveVirtual
  split
  · next heq => exact .error (object_sound m.heap receiver _ heq)
  · split
    · exact .ok _
    · split
      · exact .ok _
      · exact .error rfl

theorem callVirtual_sound (hp : p.Checked) (token : Token) : (m.callVirtual p config a below token).FailsSoundly := by
  unfold callVirtual
  split
  · next heq => exact (p.virtualTarget_fails token).sound_of_lookup _ heq
  · exact call_sound m a below hp token
  · next target _ =>
    split
    · next heq => exact a.frame.popArgs_sound _ _ heq
    · split
      · next heq => exact virtualCall_sound target _ _ heq
      · exact intrinsicWith_sound m a below _ _ _ _
      · next receiver _ =>
        have hmethod := resolveVirtual_sound (p := p) m token receiver target.name target.signature.paramCount
        split
        · next heq =>
          rw [heq] at hmethod
          exact hmethod _ rfl
        · exact callWith_sound _ a below hp _ _ _ _

theorem newObject_sound (hp : p.Checked) (token : Token) : (m.newObject p config a below token).FailsSoundly := by
  have hresolved := p.newObject_resolved_fails token
  unfold newObject
  split
  · next heq => exact hresolved.sound_of_lookup _ heq
  · dsimp only
    split
    · next heq => exact a.frame.popArgs_sound _ _ heq
    · exact callWith_sound _ a below hp _ _ _ _

theorem deliver_sound (use : ResultUse) (value : Option Value) : (m.deliver use below value).FailsSoundly := by
  unfold deliver
  split <;> exact trivial

/-- An operation that branches to an instruction, or uses a slot that is there, fails with a sound error. -/
theorem perform_local_sound {op : Operation} (hlocal : op.target?.isSome = true ∨ op.slot?.isSome = true)
    (htarget : ∀ target, op.target? = some target → ∃ j ∈ a.frame.code, j.offset = target)
    (hslot : ∀ kind index, op.slot? = some (kind, index) → index < (a.frame.slots kind).length) :
    (m.perform p config a below op).FailsSoundly := by
  cases op with
  | ldarg slot => exact settle_sound m a below (a.frame.load_sound (hslot _ _ rfl))
  | starg slot => exact settle_sound m a below (a.frame.store_sound (hslot _ _ rfl))
  | ldloc slot => exact settle_sound m a below (a.frame.load_sound (hslot _ _ rfl))
  | stloc slot => exact settle_sound m a below (a.frame.store_sound (hslot _ _ rfl))
  | br target => exact settle_sound m a below (a.frame.jumpTo_sound (htarget _ rfl))
  | brfalse target => exact settle_sound m a below (a.frame.branchOn_sound (htarget _ rfl) false)
  | brtrue target => exact settle_sound m a below (a.frame.branchOn_sound (htarget _ rfl) true)
  | branch relation target => exact settle_sound m a below (a.frame.branchIf_sound (htarget _ rfl) relation)
  | leave target => exact settle_sound m a below (a.frame.leave_sound (htarget _ rfl))
  | _ => rcases hlocal with h | h <;> cases h

/-- An operation of a verified frame in a checked program fails with a sound error. -/
theorem perform_sound (hp : p.Checked) (hv : a.frame.Verified) {i : Instruction} (hi : i ∈ a.frame.code) :
    (m.perform p config a below i.op).FailsSoundly := by
  have hlocal : (i.op.target?.isSome = true ∨ i.op.slot?.isSome = true) →
      (m.perform p config a below i.op).FailsSoundly := fun h =>
    perform_local_sound m a below h (hv.target i hi) (hv.slot i hi)
  cases hop : i.op <;> rw [hop] at hlocal
  case ldarg | starg | ldloc | stloc => exact hlocal (Or.inr rfl)
  case br | brfalse | brtrue | branch | leave => exact hlocal (Or.inl rfl)
  case nop => exact trivial
  case endfinally => exact trivial
  case ldnull => exact trivial
  case ldc => exact trivial
  case ldstr token =>
    refine settle_sound m a below (FailsOnly.map _ ?_)
    exact (p.image.userString_fails token).sound_of_lookup
  case dup => exact settle_sound m a below a.frame.duplicate_sound
  case pop => exact settle_sound m a below a.frame.drop_sound
  case arith op => exact settle_sound m a below (a.frame.arithmetic_sound op)
  case neg => exact settle_sound m a below a.frame.negate_sound
  case ceq => exact settle_sound m a below (a.frame.compare_sound .eq)
  case cgt => exact settle_sound m a below (a.frame.compare_sound .gt)
  case clt => exact settle_sound m a below (a.frame.compare_sound .lt)
  case ldfld field => exact settle_sound m a below (loadField_sound m a.frame field)
  case stfld field =>
    unfold perform
    dsimp only
    split
    · exact trivial
    · next heq => exact storeField_sound m a.frame field _ heq
  case throw =>
    unfold perform
    dsimp only
    split
    · exact raise_sound m _
    · next heq => exact a.frame.pop_sound _ heq
  case call token => exact call_sound m a below hp token
  case callvirt token => exact callVirtual_sound m a below hp token
  case newobj token => exact newObject_sound m a below hp token
  case ret => exact deliver_sound _ below _ _

/-! ### Steps and runs -/

variable {m a below}

theorem Effect.safe (hp : p.Checked) {acts : List Activation} {outcome : Outcome}
    (h : Effect p config acts a below outcome) (hv : VerifiedToHost (a :: below)) (hfails : outcome.FailsSoundly) :
    outcome.Safe := by
  cases h with
  | stays hbody hacts =>
      change VerifiedToHost _
      rw [hacts]
      exact ⟨hbody.verified hv.1, hv.2⟩
  | calls hbody hcallee _ _ hacts =>
      change VerifiedToHost _
      rw [hacts]
      exact ⟨hcallee.verified hp, fun _ => ⟨hbody.verified hv.1, hv.2⟩⟩
  | resumes huse hbelow hbody hacts =>
      have hrest := hv.2 huse
      rw [hbelow] at hrest
      change VerifiedToHost _
      rw [hacts]
      exact ⟨hbody.verified hrest.1, hrest.2⟩
  | returns => exact trivial
  | fails => exact hfails

theorem unwind_safe (m : Machine) {e : Error} (he : e.isSound = true) {acts : List Activation}
    (hv : VerifiedToHost acts) : (m.unwind p e acts).Safe := by
  induction acts generalizing e with
  | nil =>
      rw [unwind]
      exact he
  | cons a below ih =>
      rw [unwind_cons]
      cases hanswer : a.frame.answer p e with
      | handles fault index =>
          exact ⟨(a.frame.catching_sameBody _ _).verified hv.1, hv.2⟩
      | passes e' =>
          have he' := hv.1.answer_sound p he hanswer
          dsimp only
          split
          · exact he'
          · next huse => exact ih he' (hv.2 huse)

/-- **One step of verified bodies.** -/
theorem step_safe (hp : p.Checked) (hv : VerifiedToHost m.activations) : (m.step p config).Safe := by
  unfold step
  split
  · exact trivial
  · next a below heq =>
    rw [heq] at hv
    split
    · have heffect : Effect p config (a :: below) a below (m.deliver a.use below none) := deliver_effect rfl _ _
      exact heffect.safe hp hv (deliver_sound m below _ _)
    · next i hi =>
      have hfails : (m.perform p config a below i.op).FailsSoundly :=
        perform_sound m a below hp hv.1 (Array.mem_of_getElem? hi)
      have heffect : Effect p config m.activations a below (m.perform p config a below i.op) := perform_effect i.op
      split
      · next hperform =>
        rw [hperform] at hfails
        exact unwind_safe _ hfails hv
      · exact heffect.safe hp hv hfails

/-- **Runs of verified bodies** fail with a sound error. -/
theorem run_sound (hp : p.Checked) {fuel : Nat} {m' : Machine} {e : Error} (hv : VerifiedToHost m.activations)
    (h : m.run p config fuel = some (m', .error e)) : e.isSound = true := by
  induction fuel generalizing m with
  | zero => cases h
  | succ fuel ih =>
      have hsafe : (m.step p config).Safe := step_safe hp hv
      rw [run] at h
      generalize m.step p config = outcome at h hsafe
      cases outcome with
      | running m₁ => exact ih hsafe h
      | returned m₁ value => cases h
      | failed m₁ e₁ =>
          cases h
          exact hsafe

theorem invoke_sound (hp : p.Checked) {fuel : Nat} {m' : Machine} {method : Token} {args : List Value} {e : Error}
    (h : m.invoke p config fuel method args = some (m', .error e)) : e.isSound = true := by
  unfold invoke at h
  split at h
  · next heq =>
    obtain ⟨callee, hcallee, -, rfl⟩ := enter_cases heq
    refine run_sound hp ?_ h
    exact ⟨hcallee.verified hp, fun huse => absurd rfl huse⟩
  · next heq =>
    cases h
    exact enter_sound m hp method args .host _ heq

theorem runEntry_sound (hp : p.Checked) {fuel : Nat} {m' : Machine} {args : List String} {e : Error}
    (h : m.runEntry p config fuel args = some (m', .error e)) : e.isSound = true := by
  rcases runEntry_error h with hfailed | ⟨detail, rfl⟩
  · exact invoke_sound hp hfailed
  · rfl

/-! ### Runs under two configurations -/

section Configurations

variable {config' : Config} (hgc : config.gcEnabled = config'.gcEnabled) (horder : config.visiting = config'.visiting)
  (henter : ∀ (m : Machine) method args use, m.enter p config method args use = m.enter p config' method args use)

include henter

theorem callWith_congr (m : Machine) (a : Activation) (below : List Activation) (frame : Frame) (method : Token)
    (args : List Value) (use : ResultUse) :
    m.callWith p config a below frame method args use = m.callWith p config' a below frame method args use := by
  unfold callWith
  rw [henter]

theorem call_congr (m : Machine) (a : Activation) (below : List Activation) (token : Token) :
    m.call p config a below token = m.call p config' a below token := by
  unfold call
  simp only [callWith_congr henter]

theorem callVirtual_congr (m : Machine) (a : Activation) (below : List Activation) (token : Token) :
    m.callVirtual p config a below token = m.callVirtual p config' a below token := by
  unfold callVirtual
  simp only [callWith_congr henter, call_congr henter]

theorem newObject_congr (m : Machine) (a : Activation) (below : List Activation) (token : Token) :
    m.newObject p config a below token = m.newObject p config' a below token := by
  unfold newObject
  simp only [callWith_congr henter]

include hgc horder

theorem perform_congr (m : Machine) (a : Activation) (below : List Activation) (op : Operation) :
    m.perform p config a below op = m.perform p config' a below op := by
  cases op with
  | call token => exact call_congr henter m a below token
  | callvirt token => exact callVirtual_congr henter m a below token
  | newobj token => exact newObject_congr henter m a below token
  | ret =>
      change returnFrom config m a below = returnFrom config' m a below
      unfold returnFrom
      rw [hgc, horder]
  | _ => rfl

/-- A step depends on the configuration through the calls it enters and the collections of returns alone. -/
theorem step_congr (m : Machine) : m.step p config = m.step p config' := by
  unfold step
  simp only [perform_congr hgc horder henter]

theorem run_congr (fuel : Nat) (m : Machine) : m.run p config fuel = m.run p config' fuel := by
  induction fuel generalizing m with
  | zero => rfl
  | succ fuel ih =>
      rw [run, run, step_congr hgc horder henter]
      split
      · exact ih _
      · rfl
      · rfl

theorem invoke_congr (fuel : Nat) (m : Machine) (method : Token) (args : List Value) :
    m.invoke p config fuel method args = m.invoke p config' fuel method args := by
  unfold invoke
  simp only [henter, run_congr hgc horder henter]

theorem runEntry_congr (fuel : Nat) (m : Machine) (args : List String) :
    m.runEntry p config fuel args = m.runEntry p config' fuel args := by
  unfold runEntry
  simp only [invoke_congr hgc horder henter]

end Configurations

theorem enter_verifyBodies (hp : p.Checked) (config : Config) (verify verify' : Bool) (m : Machine) (method : Token)
    (args : List Value) (use : ResultUse) : m.enter p { config with verifyBodies := verify } method args use =
      m.enter p { config with verifyBodies := verify' } method args use := by
  unfold enter
  cases hinfo : p.index.methodInfo method with
  | error e => rfl
  | ok info =>
      by_cases hargs : args.length = info.signature.argCount
      · obtain ⟨callee, -, hframe⟩ := frameFor_of_checked hp hinfo args hargs
        simp only [bind, Except.bind, hframe]
      · simp [hargs, bind, Except.bind]

end Machine

/-- **The verifier is sound.** If the check of a loaded program succeeds, then under every configuration every call of
the host and every run of the entry point, on any machine and with any arguments, fails with a sound error if it fails,
and has one outcome with verification and without. -/
theorem Program.check_sound {image : Image} {p : Program} {count : Nat} (hload : load image = .ok p)
    (hcheck : p.check = .ok count) (config : Config) (fuel : Nat) (m : Machine) :
    (∀ method args m' e, m.invoke p config fuel method args = some (m', .error e) → e.isSound = true) ∧
    (∀ args m' e, m.runEntry p config fuel args = some (m', .error e) → e.isSound = true) ∧
    (∀ method args, m.invoke p { config with verifyBodies := true } fuel method args =
      m.invoke p { config with verifyBodies := false } fuel method args) ∧
    ∀ args, m.runEntry p { config with verifyBodies := true } fuel args =
      m.runEntry p { config with verifyBodies := false } fuel args := by
  have hp := checked_of_check hload hcheck
  have henter := Machine.enter_verifyBodies hp config true false
  have hgc : { config with verifyBodies := true }.gcEnabled = { config with verifyBodies := false }.gcEnabled := rfl
  refine ⟨?_, ?_, ?_, ?_⟩
  · intro method args m' e h
    exact Machine.invoke_sound hp h
  · intro args m' e h
    exact Machine.runEntry_sound hp h
  · intro method args
    exact Machine.invoke_congr hgc rfl henter fuel m method args
  · intro args
    exact Machine.runEntry_congr hgc rfl henter fuel m args

/-- A program whose entry point jumps, loads a local and takes two values off a stack of one, in a region with a
handler. -/
def drainImage : Image where
  entryPoint := .ofRow .methodDef 1
  types := [{ name := "Program" }]
  methods :=
    [{ owner := .ofRow .typeDef 1, name := "Main", locals := 1, code := [0x2B, 0x00, 0x06, 0x26, 0x26, 0x2A],
       regions := [{ kind := .catching, tryOffset := 2, tryLength := 3, handlerOffset := 5 }] }]

def drainProgram : Program where
  image := drainImage
  index := (Index.build drainImage).toOption.getD {}
  entryPoint := .ofRow .methodDef 1
  entrySignature := {}

/-- The check passes, and the run ends in the one flaw that a verified body can still show. -/
theorem Program.check_sound_underflow : load drainImage = .ok drainProgram ∧ drainProgram.check = .ok 1 ∧
    (Machine.runEntry drainProgram {} 9 {} []).map Prod.snd = some (.error (.malformedBody (.underflow 4))) ∧
    Machine.runEntry drainProgram { verifyBodies := true } 9 {} [] = Machine.runEntry drainProgram {} 9 {} [] := by
  have hload : load drainImage = .ok drainProgram := by cbv
  have hcheck : drainProgram.check = .ok 1 := by cbv
  exact ⟨hload, hcheck, by cbv, (check_sound hload hcheck {} 9 {}).2.2.2 []⟩

end ManagedCode
