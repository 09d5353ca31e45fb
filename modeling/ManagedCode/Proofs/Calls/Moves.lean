import ManagedCode.Proofs.Lockstep.Steps

/-! What one step does, said apart from what becomes of the result of the call that takes it. A step is a move of the
innermost call: it goes on in its frame, starts a call, ends with a result, or fails. Which move it is depends on the
frames in flight and not on the uses of their results. A failed move goes through the calls from the innermost on, and
each of them answers the error in one of two ways: it handles it or passes an error on. -/

namespace ManagedCode

/-- The operations that can start a call. -/
def Operation.isCall : Operation → Bool
  | .call _ | .callvirt _ | .newobj _ => true
  | _ => false

/-- The frame is at an instruction that can start a call. -/
def Frame.AtCall (f : Frame) : Prop :=
  ∃ i, f.code[f.ip]? = some i ∧ i.op.isCall = true

theorem Frame.AtCall.popArgs {f frame : Frame} {count : Nat} {args : List Value} (hf : f.AtCall)
    (h : f.popArgs count = .ok (args, frame)) : frame.AtCall := by
  have hframe : frame = { f with stack := frame.stack } := (f.popArgs_spec count _ h).2.2
  rw [hframe]
  exact hf

/-- The frame that a call starts with when `depth` calls are in flight. -/
def Program.calleeFrame (p : Program) (config : Config) (depth : Nat) (method : Token) (args : List Value) :
    Except Error Frame := do
  let info ← p.index.methodInfo method
  if args.length ≠ info.signature.argCount then
    .error (.arityMismatch info.name info.signature.argCount args.length)
  else if config.maxCallDepth ≤ depth then .error (.stackOverflow config.maxCallDepth)
  else p.frameFor config method info.signature args

theorem Machine.enter_eq {p : Program} {config : Config} (m : Machine) (method : Token) (args : List Value)
    (use : ResultUse) : m.enter p config method args use =
      (p.calleeFrame config m.callDepth method args).map fun callee =>
        { m with activations := ⟨callee, use⟩ :: m.activations } := by
  unfold enter Program.calleeFrame
  cases p.index.methodInfo method with
  | error e => rfl
  | ok info =>
      change (if _ then _ else if _ then _ else _) = Except.map _ (if _ then _ else if _ then _ else _)
      split
      · rfl
      · split
        · rfl
        · cases p.frameFor config method info.signature args <;> rfl

/-! ### Moves -/

/-- What a call does in one step. The machine gives all but the calls in flight. -/
inductive Move where
  | stays (m : Machine) (frame : Frame)
  | calls (m : Machine) (frame callee : Frame) (use : ResultUse)
  | returns (m : Machine) (value : Option Value)
  | fails (m : Machine) (error : Error)

namespace Move

/-- The outcome of a move of the call `a`. -/
def outcome (a : Activation) (below : List Activation) : Move → Outcome
  | .stays m frame => .running { m with activations := { a with frame } :: below }
  | .calls m frame callee use => .running { m with activations := ⟨callee, use⟩ :: { a with frame } :: below }
  | .returns m value => m.deliver a.use below value
  | .fails m e => .failed { m with activations := a :: below } e

/-- The outcome of a move of the call `a` once a failure has looked for its handler. -/
def settled (p : Program) (a : Activation) (below : List Activation) : Move → Outcome
  | .fails m e => m.unwind p e (a :: below)
  | move => move.outcome a below

/-- A call is started for its caller, which stays at the instruction that starts it. -/
def Proper : Move → Prop
  | .calls _ frame _ use => frame.AtCall ∧ use ≠ .host
  | _ => True

end Move

namespace Machine

variable {p : Program} {config : Config}

/-- One move gives the outcomes for all uses of the result of the call with frame `f`, and for all calls below it with
the given frames. -/
def Impartial (f : Frame) (frames : List Frame) (act : ResultUse → List Activation → Outcome) : Prop :=
  ∃ move : Move, move.Proper ∧ ∀ use below, below.map Activation.frame = frames →
    act use below = move.outcome ⟨f, use⟩ below

section Operations

variable {m : Machine} {f : Frame} {frames : List Frame}

theorem impartial_settle (r : Except Error Frame) : Impartial f frames fun use below =>
    { m with activations := ⟨f, use⟩ :: below }.settle ⟨f, use⟩ below r := by
  cases r with
  | ok frame => exact ⟨.stays m frame, trivial, fun _ _ _ => rfl⟩
  | error e => exact ⟨.fails m e, trivial, fun _ _ _ => rfl⟩

theorem impartial_failed (e : Error) : Impartial f frames fun use below =>
    .failed { m with activations := ⟨f, use⟩ :: below } e :=
  ⟨.fails m e, trivial, fun _ _ _ => rfl⟩

theorem impartial_callWith {frame : Frame} (hcall : frame.AtCall) (method : Token) (args : List Value)
    {use : ResultUse} (huse : use ≠ .host) : Impartial f frames fun use' below =>
      { m with activations := ⟨f, use'⟩ :: below }.callWith p config ⟨f, use'⟩ below frame method args use := by
  have hdepth : ∀ below : List Activation, below.map Activation.frame = frames → below.length = frames.length := by
    rintro below rfl
    exact (List.length_map _).symm
  cases hcallee : p.calleeFrame config (frames.length + 1) method args with
  | error e =>
      refine ⟨.fails m e, trivial, fun use' below hbelow => ?_⟩
      simp [callWith, enter_eq, callDepth, hdepth below hbelow, hcallee, Except.map, Move.outcome]
  | ok callee =>
      refine ⟨.calls m frame callee use, ⟨hcall, huse⟩, fun use' below hbelow => ?_⟩
      simp [callWith, enter_eq, callDepth, hdepth below hbelow, hcallee, Except.map, Move.outcome]

theorem intrinsic_withActivations (acts : List Activation) (i : Intrinsic) (args : List Value) :
    { m with activations := acts }.intrinsic i args =
      ({ (m.intrinsic i args).1 with activations := acts }, (m.intrinsic i args).2) := by
  cases i <;> rfl

theorem impartial_intrinsicWith (frame : Frame) (i : Intrinsic) (args : List Value) (use : ResultUse) :
    Impartial f frames fun use' below =>
      { m with activations := ⟨f, use'⟩ :: below }.intrinsicWith ⟨f, use'⟩ below frame i args use := by
  dsimp only [intrinsicWith]
  cases hresult : (m.intrinsic i args).2 with
  | error e =>
      refine ⟨.fails (m.intrinsic i args).1 e, trivial, fun use' below _ => ?_⟩
      dsimp only
      rw [intrinsic_withActivations, hresult]
      rfl
  | ok value =>
      refine ⟨.stays (m.intrinsic i args).1 (if use = .push then (frame.push value).next else frame.next), trivial,
        fun use' below _ => ?_⟩
      dsimp only
      rw [intrinsic_withActivations, hresult]
      rfl

theorem impartial_call (hcall : f.AtCall) (token : Token) : Impartial f frames fun use below =>
    { m with activations := ⟨f, use⟩ :: below }.call p config ⟨f, use⟩ below token := by
  unfold call
  cases token.table with
  | methodDef =>
      dsimp only
      cases p.index.methodInfo token with
      | error e => exact impartial_failed e
      | ok info =>
          dsimp only
          cases hpop : f.popArgs info.signature.argCount with
          | error e => exact impartial_failed e
          | ok r => exact impartial_callWith (hcall.popArgs hpop) token r.1 (resultUse_ne_host info.signature)
  | memberRef =>
      -- The member is resolved with the frame of the call alone.
      have hmember : ∀ use, call.member p ⟨f, use⟩ token = call.member p ⟨f, .host⟩ token := fun _ => rfl
      dsimp only
      simp only [hmember]
      cases call.member p ⟨f, .host⟩ token with
      | error e => exact impartial_failed e
      | ok r => exact impartial_intrinsicWith _ _ _ _
  | _ => exact impartial_failed _

theorem resolveVirtual_withActivations (acts : List Activation) (site : Token) (receiver : Handle) (name : String)
    (paramCount : Nat) : { m with activations := acts }.resolveVirtual p site receiver name paramCount =
      ({ (m.resolveVirtual p site receiver name paramCount).1 with activations := acts },
        (m.resolveVirtual p site receiver name paramCount).2) := by
  unfold resolveVirtual
  cases m.heap.object receiver with
  | error e => rfl
  | ok o =>
      dsimp only
      rcases m.dispatch.lookup site o.type with ⟨d, target⟩
      cases target with
      | some target => rfl
      | none =>
          dsimp only
          cases p.index.resolveVirtual? o.type name paramCount <;> rfl

theorem impartial_callVirtual (hcall : f.AtCall) (token : Token) : Impartial f frames fun use below =>
    { m with activations := ⟨f, use⟩ :: below }.callVirtual p config ⟨f, use⟩ below token := by
  unfold callVirtual
  cases p.virtualTarget token with
  | error e => exact impartial_failed e
  | ok target =>
      cases target with
      | none => exact impartial_call hcall token
      | some target =>
          dsimp only
          cases hpop : f.popArgs target.signature.argCount with
          | error e => exact impartial_failed e
          | ok r =>
              dsimp only
              cases virtualCall p target r.1 with
              | error e => exact impartial_failed e
              | ok called =>
                  cases called with
                  | toIntrinsic i => exact impartial_intrinsicWith r.2 i r.1 _
                  | toMethod receiver =>
                      have hresolve := fun acts => resolveVirtual_withActivations (p := p) (m := m) acts token receiver
                        target.name target.signature.paramCount
                      generalize m.resolveVirtual p token receiver target.name target.signature.paramCount = s
                        at hresolve
                      obtain ⟨m₁, s⟩ := s
                      dsimp only
                      cases s with
                      | error e =>
                          refine ⟨.fails m₁ e, trivial, fun use below _ => ?_⟩
                          dsimp only
                          rw [hresolve]
                          rfl
                      | ok method =>
                          have hentered : Impartial f frames fun use below =>
                              { m₁ with activations := ⟨f, use⟩ :: below }.callWith p config ⟨f, use⟩ below r.2 method
                                r.1 target.signature.resultUse :=
                            impartial_callWith (hcall.popArgs hpop) method r.1 (resultUse_ne_host target.signature)
                          obtain ⟨move, hproper, hmove⟩ := hentered
                          refine ⟨move, hproper, fun use below hbelow => ?_⟩
                          dsimp only
                          rw [hresolve]
                          exact hmove use below hbelow

theorem impartial_newObject (hcall : f.AtCall) (token : Token) : Impartial f frames fun use below =>
    { m with activations := ⟨f, use⟩ :: below }.newObject p config ⟨f, use⟩ below token := by
  unfold newObject
  cases newObject.resolved p token with
  | error e => exact impartial_failed e
  | ok r =>
      dsimp only
      cases hpop : f.popArgs r.2.2.1.paramCount with
      | error e => exact impartial_failed (m := { m with heap := _ }) e
      | ok s =>
          have hpopped : s.2.AtCall := hcall.popArgs hpop
          have hpushed : ∀ made, (s.2.push made).AtCall := fun _ => hpopped
          exact impartial_callWith (m := { m with heap := _ }) (hpushed _) _ _ (by decide)

theorem deliver_withActivations (acts : List Activation) (use : ResultUse) (below : List Activation)
    (value : Option Value) : { m with activations := acts }.deliver use below value = m.deliver use below value := by
  cases use <;> cases below <;> rfl

theorem roots_eq (m : Machine) : m.roots = (m.activations.map Activation.frame).flatMap Frame.roots := by
  rw [List.flatMap_map]
  rfl

theorem impartial_returnFrom : Impartial f frames fun use below =>
    { m with activations := ⟨f, use⟩ :: below }.returnFrom config ⟨f, use⟩ below := by
  let roots := ({ f with stack := f.stack.tail } :: frames).flatMap Frame.roots ++ f.stack.head?.toList
  refine ⟨.returns { m with heap := m.heap.atReturn config roots } f.stack.head?, trivial, fun use below hbelow => ?_⟩
  dsimp only
  rw [returnFrom_eq]
  dsimp only
  rw [roots_eq]
  simp only [roots, ← hbelow]
  exact deliver_withActivations (m := { m with heap := _ }) _ _ _ _

/-- **What an operation does depends on the frames in flight, and not on what becomes of their results.** -/
theorem perform_impartial (p : Program) (config : Config) (m : Machine) (frames : List Frame) {i : Instruction}
    (hi : f.code[f.ip]? = some i) : Impartial f frames fun use below =>
    { m with activations := ⟨f, use⟩ :: below }.perform p config ⟨f, use⟩ below i.op := by
  have hcall : i.op.isCall = true → f.AtCall := fun hop => ⟨i, hi, hop⟩
  have onFrame : ∀ r, Impartial f frames fun use below =>
      { m with activations := ⟨f, use⟩ :: below }.settle ⟨f, use⟩ below r := fun r => impartial_settle r
  generalize i.op = op at hcall ⊢
  cases op with
  | nop => exact onFrame (.ok f.next)
  | endfinally => exact onFrame (.ok f.next)
  | ldarg slot => exact onFrame (f.load .argument slot.toNat)
  | starg slot => exact onFrame (f.store .argument slot.toNat)
  | ldloc slot => exact onFrame (f.load .localVariable slot.toNat)
  | stloc slot => exact onFrame (f.store .localVariable slot.toNat)
  | ldnull => exact onFrame (.ok (f.push .null).next)
  | ldc value => exact onFrame (.ok (f.push (.int value)).next)
  | ldstr token => exact onFrame ((p.image.userString token).map fun text => (f.push (.str text)).next)
  | dup => exact onFrame f.duplicate
  | pop => exact onFrame f.drop
  | arith op => exact onFrame (f.arithmetic op)
  | neg => exact onFrame f.negate
  | ceq => exact onFrame (f.compare .eq)
  | cgt => exact onFrame (f.compare .gt)
  | clt => exact onFrame (f.compare .lt)
  | br target => exact onFrame (f.jumpTo target)
  | brfalse target => exact onFrame (f.branchOn false target)
  | brtrue target => exact onFrame (f.branchOn true target)
  | branch relation target => exact onFrame (f.branchIf relation target)
  | leave target => exact onFrame (f.leave target)
  | ldfld field => exact onFrame (loadField p m f field)
  | stfld field =>
      have hstore : ∀ acts, storeField p { m with activations := acts } f field = storeField p m f field := fun _ => rfl
      dsimp only [perform]
      simp only [hstore]
      cases storeField p m f field with
      | error e => exact impartial_failed e
      | ok r => exact impartial_settle (m := { m with heap := r.2 }) (.ok r.1)
  | throw =>
      dsimp only [perform]
      cases f.pop with
      | error e => exact impartial_failed e
      | ok r =>
          obtain ⟨value, g⟩ := r
          refine ⟨.fails m (raise p m value), trivial, fun use below _ => ?_⟩
          cases value <;> rfl
  | call token => exact impartial_call (hcall rfl) token
  | callvirt token => exact impartial_callVirtual (hcall rfl) token
  | newobj token => exact impartial_newObject (hcall rfl) token
  | ret => exact impartial_returnFrom

end Operations

/-! ### Errors -/

theorem unwind_withActivations (m : Machine) (e : Error) (acts acts' : List Activation) :
    { m with activations := acts' }.unwind p e acts = m.unwind p e acts := by
  have hidentity : ∀ e, { m with activations := acts' }.identityOf e = m.identityOf e := by
    intro e
    cases e <;> rfl
  induction acts generalizing e with
  | nil => rw [unwind, unwind]
  | cons a below ih =>
      rw [unwind_cons, unwind_cons, hidentity]
      cases a.frame.answer p e with
      | handles fault index => rfl
      | passes e' => simp only [ih]

/-- **A step is a move of the innermost call**, and an error of it goes through the calls in flight. -/
theorem step_move (p : Program) (config : Config) (m : Machine) (f : Frame) (frames : List Frame) :
    ∃ move : Move, move.Proper ∧ ∀ use below, below.map Activation.frame = frames →
      { m with activations := ⟨f, use⟩ :: below }.step p config = move.settled p ⟨f, use⟩ below := by
  cases hi : f.code[f.ip]? with
  | none =>
      refine ⟨.returns m none, trivial, fun use below _ => ?_⟩
      simp only [step, hi]
      exact deliver_withActivations _ _ _ _
  | some i =>
      obtain ⟨move, hproper, hmove⟩ := perform_impartial p config m frames hi
      refine ⟨move, hproper, fun use below hbelow => ?_⟩
      simp only [step, hi, hmove use below hbelow]
      cases move with
      | stays m₁ frame => rfl
      | calls m₁ frame callee use => rfl
      | fails m₁ e => exact unwind_withActivations _ _ _ _
      | returns m₁ value => cases use <;> cases below <;> rfl

theorem step_of_activations (p : Program) (config : Config) {m : Machine} {a : Activation} {below : List Activation}
    (hacts : m.activations = a :: below) : ∃ move : Move, move.Proper ∧ m.step p config = move.settled p a below := by
  obtain ⟨move, hproper, hmove⟩ := step_move p config m a.frame (below.map Activation.frame)
  refine ⟨move, hproper, ?_⟩
  have hstep := hmove a.use below rfl
  obtain ⟨heap, acts, dispatch, console, fresh⟩ := m
  obtain rfl : acts = a :: below := hacts
  exact hstep

end Machine
end ManagedCode
