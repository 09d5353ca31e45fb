import ManagedCode.Machine.Run
import ManagedCode.Proofs.Computations

/-! What steps and runs do to the calls in flight. A step changes the frame of the innermost call, starts a call above
it, or ends calls and goes on in a caller; a frame keeps its body and the numbers of its slots all along. A run ends
with the calls below the call of the host that it is a run of, and these are as they were. -/

namespace ManagedCode

namespace Frame

/-- Frames of one body, with slots for as many values. -/
structure SameBody (f f' : Frame) : Prop where
  method : f'.method = f.method
  code : f'.code = f.code
  regions : f'.regions = f.regions
  args : f'.args.length = f.args.length
  locals : f'.locals.length = f.locals.length

namespace SameBody

variable {f f' f'' : Frame}

theorem refl (f : Frame) : f.SameBody f :=
  ⟨rfl, rfl, rfl, rfl, rfl⟩

theorem trans (h : f.SameBody f') (h' : f'.SameBody f'') : f.SameBody f'' :=
  ⟨h'.method.trans h.method, h'.code.trans h.code, h'.regions.trans h.regions, h'.args.trans h.args,
    h'.locals.trans h.locals⟩

theorem next (h : f.SameBody f') : f.SameBody f'.next :=
  { h with }

theorem push (h : f.SameBody f') (v : Value) : f.SameBody (f'.push v) :=
  { h with }

end SameBody

variable (f : Frame)

theorem pop_sameBody : Yields (fun r => f.SameBody r.2) f.pop := by
  intro r h
  rw [(f.pop_spec r h).2]
  exact ⟨rfl, rfl, rfl, rfl, rfl⟩

theorem popArgs_sameBody (count : Nat) : Yields (fun r => f.SameBody r.2) (f.popArgs count) := by
  intro r h
  rw [(f.popArgs_spec count r h).2.2]
  exact ⟨rfl, rfl, rfl, rfl, rfl⟩

theorem setSlot_sameBody (kind : SlotKind) (index : Nat) (v : Value) :
    Yields f.SameBody (f.setSlot kind index v) := by
  unfold setSlot
  split
  · cases kind with
    | argument => exact .ok ⟨rfl, rfl, rfl, List.length_set, rfl⟩
    | localVariable => exact .ok ⟨rfl, rfl, rfl, rfl, List.length_set⟩
  · exact .error _

theorem jumpTo_sameBody (target : Nat) : Yields f.SameBody (f.jumpTo target) :=
  (Yields.of_true _).bind fun _ _ => .ok ⟨rfl, rfl, rfl, rfl, rfl⟩

theorem popTwo_sameBody : Yields (fun r => f.SameBody r.2.2) f.popTwo :=
  f.pop_sameBody.bind fun r hr => r.2.pop_sameBody.bind fun _ hs => .ok (hr.trans hs)

theorem load_sameBody (kind : SlotKind) (index : Nat) : Yields f.SameBody (f.load kind index) :=
  (Yields.of_true _).bind fun v _ => .ok ((SameBody.refl f).push v).next

theorem store_sameBody (kind : SlotKind) (index : Nat) : Yields f.SameBody (f.store kind index) :=
  f.pop_sameBody.bind fun r hr =>
    (r.2.setSlot_sameBody kind index r.1).bind fun _ hs => .ok (hr.trans hs).next

theorem duplicate_sameBody : Yields f.SameBody f.duplicate :=
  (Yields.of_true _).bind fun v _ => .ok ((SameBody.refl f).push v).next

theorem drop_sameBody : Yields f.SameBody f.drop :=
  f.pop_sameBody.bind fun _ hr => .ok hr.next

theorem arithmetic_sameBody (op : Arithmetic) : Yields f.SameBody (f.arithmetic op) :=
  f.popTwo_sameBody.bind fun _ hr => (Yields.of_true _).bind fun _ _ => (Yields.of_true _).bind fun _ _ =>
    (Yields.of_true _).bind fun _ _ => .ok (hr.push _).next

theorem negate_sameBody : Yields f.SameBody f.negate :=
  f.pop_sameBody.bind fun _ hr => (Yields.of_true _).bind fun _ _ => .ok (hr.push _).next

theorem compare_sameBody (relation : Relation) : Yields f.SameBody (f.compare relation) :=
  f.popTwo_sameBody.bind fun _ hr => (Yields.of_true _).bind fun _ _ => .ok (hr.push _).next

theorem branchOn_sameBody (sense : Bool) (target : Nat) : Yields f.SameBody (f.branchOn sense target) := by
  refine f.pop_sameBody.bind fun r hr => ?_
  dsimp only
  split
  · exact fun f' hf' => hr.trans (r.2.jumpTo_sameBody target f' hf')
  · exact .ok hr.next

theorem branchIf_sameBody (relation : Relation) (target : Nat) : Yields f.SameBody (f.branchIf relation target) := by
  refine f.popTwo_sameBody.bind fun r hr => (Yields.of_true _).bind fun holds _ => ?_
  split
  · exact fun f' hf' => hr.trans (r.2.2.jumpTo_sameBody target f' hf')
  · exact .ok hr.next

theorem leave_sameBody (target : Nat) : Yields f.SameBody (f.leave target) :=
  (f.jumpTo_sameBody target).bind fun _ hr => .ok { hr with }

end Frame

namespace Machine

variable {p : Program} {config : Config} {m : Machine} {a : Activation} {below : List Activation}

theorem loadField_sameBody (f : Frame) (field : Token) : Yields f.SameBody (loadField p m f field) :=
  (Yields.of_true _).bind fun _ _ => f.pop_sameBody.bind fun _ hr => (Yields.of_true _).bind fun _ _ =>
    (Yields.of_true _).bind fun _ _ => .ok (hr.push _).next

theorem storeField_sameBody (f : Frame) (field : Token) :
    Yields (fun r => f.SameBody r.1) (storeField p m f field) :=
  (Yields.of_true _).bind fun _ _ => f.pop_sameBody.bind fun r hr => r.2.pop_sameBody.bind fun _ hs =>
    (Yields.of_true _).bind fun _ _ => (Yields.of_true _).bind fun _ _ => .ok (hr.trans hs).next

/-! ### One operation -/

/-- The frame of a method that the program starts with arguments for all its slots. -/
def Starts (p : Program) (config : Config) (callee : Frame) : Prop :=
  ∃ method info args, p.index.methodInfo method = .ok info ∧ args.length = info.signature.argCount ∧
    p.frameFor config method info.signature args = .ok callee

/-- All that an operation of the call `a` can do to the calls in flight: go on in `a`, start a call, go on in the
caller, return to the host, or fail and leave them as they were. -/
inductive Effect (p : Program) (config : Config) (acts : List Activation) (a : Activation) (below : List Activation) :
    Outcome → Prop where
  | stays {m : Machine} {frame : Frame} (hbody : a.frame.SameBody frame)
      (hacts : m.activations = { a with frame } :: below) : Effect p config acts a below (.running m)
  | calls {m : Machine} {frame callee : Frame} {use : ResultUse} (hbody : a.frame.SameBody frame)
      (hcallee : Starts p config callee) (huse : use ≠ .host) (hdepth : below.length + 1 < config.maxCallDepth)
      (hacts : m.activations = ⟨callee, use⟩ :: { a with frame } :: below) : Effect p config acts a below (.running m)
  | resumes {m : Machine} {b : Activation} {rest : List Activation} {frame : Frame} (huse : a.use ≠ .host)
      (hbelow : below = b :: rest) (hbody : b.frame.SameBody frame)
      (hacts : m.activations = { b with frame } :: rest) : Effect p config acts a below (.running m)
  | returns {m : Machine} {value : Option Value} (hlast : a.use = .host ∨ below = [])
      (hacts : m.activations = below) : Effect p config acts a below (.returned m value)
  | fails {m : Machine} {e : Error} (hacts : m.activations = acts) : Effect p config acts a below (.failed m e)

theorem settle_effect {r : Except Error Frame} (hr : Yields a.frame.SameBody r) :
    Effect p config m.activations a below (m.settle a below r) := by
  cases r with
  | ok frame => exact .stays (hr frame rfl) rfl
  | error e => exact .fails rfl

theorem enter_cases {m' : Machine} {method : Token} {args : List Value} {use : ResultUse}
    (h : m.enter p config method args use = .ok m') : ∃ callee, Starts p config callee ∧
      m.callDepth < config.maxCallDepth ∧ m' = { m with activations := ⟨callee, use⟩ :: m.activations } := by
  unfold enter at h
  cases hinfo : p.index.methodInfo method with
  | error e =>
      rw [hinfo] at h
      cases h
  | ok info =>
      rw [hinfo] at h
      change (if _ then _ else if _ then _ else _) = _ at h
      split at h
      · cases h
      · next hargs =>
        split at h
        · cases h
        · next hdepth =>
          cases hframe : p.frameFor config method info.signature args with
          | error e =>
              rw [hframe] at h
              cases h
          | ok callee =>
              rw [hframe] at h
              cases h
              have hstarts : Starts p config callee := ⟨method, info, args, hinfo, Decidable.not_not.1 hargs, hframe⟩
              exact ⟨callee, hstarts, Nat.lt_of_not_le hdepth, rfl⟩

theorem callWith_effect {acts : List Activation} (hacts : m.activations = acts) {frame : Frame}
    (hbody : a.frame.SameBody frame) (method : Token) (args : List Value) {use : ResultUse} (huse : use ≠ .host) :
    Effect p config acts a below (m.callWith p config a below frame method args use) := by
  unfold callWith
  split
  · next heq =>
    obtain ⟨callee, hcallee, hdepth, rfl⟩ := enter_cases heq
    exact .calls hbody hcallee huse hdepth rfl
  · exact .fails hacts

theorem resultUse_ne_host (s : Signature) : s.resultUse ≠ .host := by
  unfold Signature.resultUse
  split <;> decide

theorem intrinsic_activations (i : Intrinsic) (args : List Value) :
    (m.intrinsic i args).1.activations = m.activations := by
  cases i <;> rfl

theorem intrinsicWith_effect {frame : Frame} (hbody : a.frame.SameBody frame) (i : Intrinsic) (args : List Value)
    (use : ResultUse) : Effect p config m.activations a below (m.intrinsicWith a below frame i args use) := by
  have hacts : (m.intrinsic i args).1.activations = m.activations := intrinsic_activations i args
  unfold intrinsicWith
  generalize m.intrinsic i args = r at hacts ⊢
  obtain ⟨m', r⟩ := r
  rw [← hacts]
  cases r with
  | error e => exact .fails rfl
  | ok value =>
      refine settle_effect (.ok ?_)
      split
      · exact (hbody.push value).next
      · exact hbody.next

theorem call_effect (token : Token) : Effect p config m.activations a below (m.call p config a below token) := by
  unfold call
  split
  · split
    · exact .fails rfl
    · next info _ =>
      split
      · exact .fails rfl
      · next heq =>
        exact callWith_effect rfl (a.frame.popArgs_sameBody _ _ heq) token _ (resultUse_ne_host info.signature)
  · have hmember : Yields (fun r => a.frame.SameBody r.2.2.2) (call.member p a token) := by
      refine (Yields.of_true _).bind fun member _ => (Yields.of_true _).bind fun signature _ => ?_
      refine (a.frame.popArgs_sameBody _).bind fun r hr => (Yields.of_true _).bind fun i _ => ?_
      cases i with
      | none => exact .error _
      | some i => exact .ok hr
    split
    · exact .fails rfl
    · next heq => exact intrinsicWith_effect (hmember _ heq) _ _ _
  · exact .fails rfl

theorem resolveVirtual_activations (site : Token) (receiver : Handle) (name : String) (paramCount : Nat) :
    (m.resolveVirtual p site receiver name paramCount).1.activations = m.activations := by
  unfold resolveVirtual
  split
  · rfl
  · split
    · rfl
    · split
      · rfl
      · rfl

theorem callVirtual_effect (token : Token) :
    Effect p config m.activations a below (m.callVirtual p config a below token) := by
  unfold callVirtual
  split
  · exact .fails rfl
  · exact call_effect token
  · next target _ =>
    split
    · exact .fails rfl
    · next args frame heq =>
      have hbody : a.frame.SameBody frame := a.frame.popArgs_sameBody _ _ heq
      split
      · exact .fails rfl
      · exact intrinsicWith_effect hbody _ _ _
      · next receiver _ =>
        have hacts := resolveVirtual_activations (p := p) (m := m) token receiver target.name
          target.signature.paramCount
        split
        · next heq =>
          rw [heq] at hacts
          exact .fails hacts
        · next heq =>
          rw [heq] at hacts
          exact callWith_effect hacts hbody _ _ (resultUse_ne_host target.signature)

theorem newObject_effect (token : Token) :
    Effect p config m.activations a below (m.newObject p config a below token) := by
  unfold newObject
  split
  · exact .fails rfl
  · dsimp only
    split
    · exact .fails rfl
    · next heq =>
      refine callWith_effect ?_ ((a.frame.popArgs_sameBody _ _ heq).push _) _ _ ?_
      · rfl
      · decide

theorem deliver_effect {use : ResultUse} (huse : a.use = use) (acts : List Activation) (value : Option Value) :
    Effect p config acts a below (m.deliver use below value) := by
  unfold deliver
  split
  · exact .returns (Or.inl huse) rfl
  · exact .returns (Or.inr rfl) rfl
  · exact .resumes (by simp [huse]) rfl ((Frame.SameBody.refl _).push _).next rfl
  · exact .resumes (by simp [huse]) rfl (Frame.SameBody.refl _).next rfl

/-- **What an operation does to the calls in flight.** -/
theorem perform_effect (op : Operation) :
    Effect p config m.activations a below (m.perform p config a below op) := by
  have hf := Frame.SameBody.refl a.frame
  cases op with
  | nop => exact settle_effect (.ok hf.next)
  | endfinally => exact settle_effect (.ok hf.next)
  | ldarg slot => exact settle_effect (a.frame.load_sameBody _ _)
  | starg slot => exact settle_effect (a.frame.store_sameBody _ _)
  | ldloc slot => exact settle_effect (a.frame.load_sameBody _ _)
  | stloc slot => exact settle_effect (a.frame.store_sameBody _ _)
  | ldnull => exact settle_effect (.ok (hf.push _).next)
  | ldc value => exact settle_effect (.ok (hf.push _).next)
  | ldstr token =>
      apply settle_effect
      cases p.image.userString token with
      | error e => exact .error e
      | ok text => exact .ok (hf.push _).next
  | dup => exact settle_effect a.frame.duplicate_sameBody
  | pop => exact settle_effect a.frame.drop_sameBody
  | arith op => exact settle_effect (a.frame.arithmetic_sameBody op)
  | neg => exact settle_effect a.frame.negate_sameBody
  | ceq => exact settle_effect (a.frame.compare_sameBody _)
  | cgt => exact settle_effect (a.frame.compare_sameBody _)
  | clt => exact settle_effect (a.frame.compare_sameBody _)
  | br target => exact settle_effect (a.frame.jumpTo_sameBody target)
  | brfalse target => exact settle_effect (a.frame.branchOn_sameBody _ target)
  | brtrue target => exact settle_effect (a.frame.branchOn_sameBody _ target)
  | branch relation target => exact settle_effect (a.frame.branchIf_sameBody _ target)
  | leave target => exact settle_effect (a.frame.leave_sameBody target)
  | ldfld field => exact settle_effect (loadField_sameBody _ _)
  | stfld field =>
      unfold perform
      dsimp only
      split
      · next heq => exact .stays (storeField_sameBody _ _ _ heq) rfl
      · exact .fails rfl
  | throw =>
      unfold perform
      dsimp only
      split
      · exact .fails rfl
      · exact .fails rfl
  | call token => exact call_effect token
  | callvirt token => exact callVirtual_effect token
  | newobj token => exact newObject_effect token
  | ret => exact deliver_effect rfl _ _

theorem perform_failed_activations {op : Operation} {m' : Machine} {e : Error}
    (h : m.perform p config a below op = .failed m' e) : m'.activations = m.activations := by
  have heffect : Effect p config m.activations a below (m.perform p config a below op) := perform_effect op
  rw [h] at heffect
  cases heffect with
  | fails hacts => exact hacts

end Machine

/-! ### Steps and runs -/

/-- The calls below the innermost call of the host. -/
def belowHost : List Activation → List Activation
  | [] => []
  | a :: below => if a.use = .host then below else belowHost below

theorem belowHost_cons_frame (a : Activation) (frame : Frame) (below : List Activation) :
    belowHost ({ a with frame } :: below) = belowHost (a :: below) := rfl

/-- The calls in flight after a step, relative to the calls below the host's: these stay, and they are what is left in
the end. -/
def Outcome.Above (base : List Activation) : Outcome → Prop
  | .running m => belowHost m.activations = base
  | .returned m _ | .failed m _ => m.activations = base

/-! ### Answers to an error -/

namespace Machine

/-- How a call answers an error: it goes on at the instruction of a handler, with the fault that it caught, or it ends
and passes on an error. -/
inductive Answer where
  | handles (fault : Fault) (index : Nat)
  | passes (error : Error)

end Machine

namespace Frame

/-- The answer of a frame to an error that was raised at a position of its body. -/
def answerAt (p : Program) (f : Frame) (offset : Nat) (e : Error) : Machine.Answer :=
  match e.toFault? with
  | none => .passes e
  | some fault =>
      match f.handlerAmong p fault (f.candidates offset) with
      | .ok (some index) => .handles fault index
      | .ok none => .passes e
      | .error e' => .passes e'

/-- The answer of a frame to an error of the instruction it is at. -/
def answer (p : Program) (f : Frame) (e : Error) : Machine.Answer :=
  f.answerAt p f.currentOffset e

/-- The frame at its handler: the value of the fault is all that its stack holds. -/
def catching (f : Frame) (value : Value) (index : Nat) : Frame :=
  { f with stack := [value], ip := index }

theorem catching_sameBody (f : Frame) (value : Value) (index : Nat) : f.SameBody (f.catching value index) :=
  ⟨rfl, rfl, rfl, rfl, rfl⟩

end Frame

namespace Machine

variable {p : Program} {config : Config} {m : Machine} {a : Activation} {below : List Activation}

/-- The search for a handler works on the frame and the machine by the answer of the frame. -/
theorem handleFault_eq (p : Program) (offset : Nat) (e : Error) (f : Frame) (m : Machine) :
    handleFault p offset e ⟨f, m⟩ =
      match f.answerAt p offset e with
      | .handles fault index =>
          .ok index ⟨{ f with stack := [fault.toValue (m.identityOf e)] }, { m with fresh := m.fresh + 1 }⟩
      | .passes e' => .error e' ⟨f, m⟩ := by
  rw [handleFault, Frame.answerAt]
  cases e.toFault? with
  | none => rfl
  | some fault =>
      dsimp only
      cases f.handlerAmong p fault (f.candidates offset) with
      | error e' => rfl
      | ok handler => cases handler <;> rfl

/-- An error goes from call to call by their answers. -/
theorem unwind_cons (m : Machine) (e : Error) (a : Activation) (below : List Activation) :
    m.unwind p e (a :: below) =
      match a.frame.answer p e with
      | .handles fault index =>
          .running { m with
            activations := { a with frame := a.frame.catching (fault.toValue (m.identityOf e)) index } :: below
            fresh := m.fresh + 1 }
      | .passes e' => if a.use = .host then .failed { m with activations := below } e' else m.unwind p e' below := by
  rw [unwind, handleFault_eq, Frame.answer]
  cases a.frame.answerAt p a.frame.currentOffset e <;> rfl

/-- **What unwinding keeps.** If an error is caught, there is a call that goes on. What holds of the calls in flight
holds then as well, if it holds of the calls below one that is not the host's, and in a frame depends on the body. -/
theorem unwind_invariant {P : List Activation → Prop}
    (hpassed : ∀ a below, a.use ≠ .host → P (a :: below) → P below)
    (hcaught : ∀ a below frame, a.frame.SameBody frame → P (a :: below) → P ({ a with frame } :: below))
    {m m' : Machine} {e : Error} {acts : List Activation} (hacts : P acts) (h : m.unwind p e acts = .running m') :
    P m'.activations ∧ m'.activations ≠ [] := by
  induction acts generalizing e with
  | nil =>
      rw [unwind] at h
      cases h
  | cons a below ih =>
      rw [unwind_cons] at h
      cases hanswer : a.frame.answer p e with
      | handles fault index =>
          rw [hanswer] at h
          cases h
          exact ⟨hcaught a below _ (a.frame.catching_sameBody _ _) hacts, List.cons_ne_nil _ _⟩
      | passes e' =>
          rw [hanswer] at h
          dsimp only at h
          split at h
          · cases h
          · next huse => exact ih (hpassed a below huse hacts) h

/-! ### The calls below the host's -/

theorem unwind_above (m : Machine) (e : Error) (acts : List Activation) :
    (m.unwind p e acts).Above (belowHost acts) := by
  induction acts generalizing e with
  | nil =>
      rw [unwind]
      exact rfl
  | cons a below ih =>
      rw [unwind_cons, belowHost]
      cases a.frame.answer p e with
      | handles fault index => exact rfl
      | passes e' =>
          dsimp only
          split
          · exact rfl
          · exact ih e'

theorem Effect.above {outcome : Outcome} (h : Effect p config (a :: below) a below outcome)
    (hfailed : ∀ m e, outcome ≠ .failed m e) : outcome.Above (belowHost (a :: below)) := by
  cases h with
  | stays _ hacts =>
      change belowHost _ = _
      rw [hacts, belowHost_cons_frame]
  | calls _ _ huse _ hacts =>
      change belowHost _ = _
      rw [hacts, belowHost, if_neg huse, belowHost_cons_frame]
  | resumes huse hbelow _ hacts =>
      change belowHost _ = belowHost (a :: below)
      rw [hacts, belowHost_cons_frame, belowHost.eq_2 a, if_neg huse, hbelow]
  | returns hlast hacts =>
      change _ = belowHost _
      rw [hacts, belowHost]
      rcases hlast with huse | rfl
      · rw [if_pos huse]
      · split <;> rfl
  | fails => exact absurd rfl (hfailed _ _)

/-- **What a step does to the calls below the host's.** -/
theorem step_above (p : Program) (config : Config) (m : Machine) :
    (m.step p config).Above (belowHost m.activations) := by
  unfold step
  split
  · next heq =>
    rw [heq]
    exact heq
  · next a below heq =>
    rw [heq]
    split
    · have heffect : Effect p config (a :: below) a below (m.deliver a.use below none) := deliver_effect rfl _ _
      refine heffect.above fun m' e => ?_
      unfold deliver
      split <;> simp
    · next i _ =>
      have heffect : Effect p config m.activations a below (m.perform p config a below i.op) := perform_effect i.op
      rw [heq] at heffect
      split
      · exact unwind_above _ _ _
      · next hfailed => exact heffect.above hfailed

/-- **A run ends with the calls below the host's.** -/
theorem run_activations {fuel : Nat} {m' : Machine} {result : Except Error (Option Value)}
    (h : m.run p config fuel = some (m', result)) : m'.activations = belowHost m.activations := by
  induction fuel generalizing m with
  | zero => cases h
  | succ fuel ih =>
      have habove := step_above p config m
      rw [run] at h
      cases hstep : m.step p config with
      | running m₁ =>
          rw [hstep] at h habove
          calc
            m'.activations = belowHost m₁.activations := ih h
            _ = belowHost m.activations := habove
      | returned m₁ v =>
          rw [hstep] at h habove
          cases h
          exact habove
      | failed m₁ e =>
          rw [hstep] at h habove
          cases h
          exact habove

theorem invoke_activations {fuel : Nat} {m' : Machine} {method : Token} {args : List Value}
    {result : Except Error (Option Value)} (h : m.invoke p config fuel method args = some (m', result)) :
    m'.activations = m.activations := by
  unfold invoke at h
  split at h
  · next heq =>
    obtain ⟨callee, -, -, rfl⟩ := enter_cases heq
    exact run_activations h
  · cases h
    rfl

/-- In the end only the console is worked on. -/
theorem finishEntry_machine {m' : Machine} {returned : Except Error (Option Value)} {result : Except Error Int32}
    (h : m.finishEntry returned = (m', result)) : ∃ console, m' = { m with console } := by
  cases returned with
  | error e =>
      cases h
      exact ⟨m.console, rfl⟩
  | ok value =>
      cases h
      exact ⟨m.console.flush.1, rfl⟩

theorem finishEntry_ok (m : Machine) (value : Option Value) : m.finishEntry (.ok value) =
    ({ m with console := m.console.flush.1 }, m.console.flush.2.map fun _ => exitCode value) := rfl

/-- A run of the entry point is a call of its method by the host. -/
theorem runEntry_cases {fuel : Nat} {m' : Machine} {args : List String} {result : Except Error Int32}
    (h : m.runEntry p config fuel args = some (m', result)) : ∃ m₁ returned, m₁.finishEntry returned = (m', result) ∧
      (m.entryArguments p args).1.invoke p config fuel p.entryPoint (m.entryArguments p args).2 =
        some (m₁, returned) := by
  obtain ⟨⟨m₁, returned⟩, hinvoke, heq⟩ := Option.map_eq_some_iff.1 h
  exact ⟨m₁, returned, heq, hinvoke⟩

/-- An error is that of the call, unless flushing fails. -/
theorem runEntry_error {fuel : Nat} {m' : Machine} {args : List String} {e : Error}
    (h : m.runEntry p config fuel args = some (m', .error e)) :
    (m.entryArguments p args).1.invoke p config fuel p.entryPoint (m.entryArguments p args).2 =
      some (m', .error e) ∨ ∃ detail, e = .io detail := by
  obtain ⟨m₁, returned, hfinish, hinvoke⟩ := runEntry_cases h
  cases returned with
  | error e' =>
      cases hfinish
      exact Or.inl hinvoke
  | ok value =>
      rw [finishEntry_ok] at hfinish
      cases hflush : m₁.console.flush.2 with
      | ok u =>
          rw [hflush] at hfinish
          cases hfinish
      | error e' =>
          rw [hflush] at hfinish
          cases hfinish
          exact Or.inr (Console.flush_fails hflush)

theorem entryArguments_activations (args : List String) :
    (m.entryArguments p args).1.activations = m.activations := by
  unfold entryArguments
  split
  · rfl
  · rfl

/-- **A run of the entry point leaves the calls in flight as they were.** -/
theorem runEntry_activations {fuel : Nat} {m' : Machine} {args : List String} {result : Except Error Int32}
    (h : m.runEntry p config fuel args = some (m', result)) : m'.activations = m.activations := by
  obtain ⟨m₁, returned, hfinish, hinvoke⟩ := runEntry_cases h
  obtain ⟨console, rfl⟩ := finishEntry_machine hfinish
  calc
    m₁.activations = (m.entryArguments p args).1.activations := invoke_activations hinvoke
    _ = m.activations := entryArguments_activations args

end Machine
end ManagedCode
