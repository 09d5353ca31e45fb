import ManagedCode.Proofs.CallStack
import ManagedCode.Proofs.Heap.Consistency
import ManagedCode.Proofs.Lockstep.Frames

/-! Two machines that run one program in lockstep. A coupling says what their heaps and dispatch memos have in common,
and that the operations of a program on the heaps, a collection at a return included, keep it. From this alone follows
that one step of each machine, and so a whole run of each, ends alike up to a renaming of handles. The couplings
themselves are found where two particular runs are compared. -/

namespace ManagedCode

/-- The heap after a return, with the values that the calls in flight and the returned value keep alive. -/
def Heap.atReturn (heap : Heap) (config : Config) (roots : List Value) : Heap :=
  if config.gcEnabled then heap.collectMinorBy (config.visiting heap) roots else heap

/-- What a virtual call does to the memo and which method it finds, for a receiver of the given type. -/
def Program.resolveIn (p : Program) (d : Dispatch) (site type : Token) (name : String) (paramCount : Nat) :
    Dispatch × Option Token :=
  match d.lookup site type with
  | (d, some target) => (d, some target)
  | (d, none) =>
      match p.index.resolveVirtual? type name paramCount with
      | some target => (d.insert site type target, some target)
      | none => (d, none)

theorem Machine.resolveVirtual_eq {p : Program} {m : Machine} {receiver : Handle} {o : Object}
    (hget : m.heap.get? receiver = some o) (site : Token) (name : String) (paramCount : Nat) :
    m.resolveVirtual p site receiver name paramCount =
      ({ m with dispatch := (p.resolveIn m.dispatch site o.type name paramCount).1 },
        match (p.resolveIn m.dispatch site o.type name paramCount).2 with
        | some target => .ok target
        | none => .error (.virtualNotFound o.typeName name paramCount)) := by
  unfold resolveVirtual Heap.object Program.resolveIn
  rw [hget]
  dsimp only
  rcases m.dispatch.lookup site o.type with ⟨d, target⟩
  cases target with
  | some target => rfl
  | none =>
      dsimp only
      cases p.index.resolveVirtual? o.type name paramCount with
      | some target => rfl
      | none => rfl

theorem Machine.returnFrom_eq (config : Config) (m : Machine) (a : Activation) (below : List Activation) :
    m.returnFrom config a below =
      let acts := { a with frame := { a.frame with stack := a.frame.stack.tail } } :: below
      let roots := { m with activations := acts }.roots ++ a.frame.stack.head?.toList
      { m with heap := m.heap.atReturn config roots, activations := acts }.deliver a.use below a.frame.stack.head? := by
  unfold returnFrom Heap.atReturn
  dsimp only
  cases config.gcEnabled with
  | true => rfl
  | false => rfl

theorem Machine.mem_roots {m : Machine} {a : Activation} {v : Value} (ha : a ∈ m.activations)
    (hv : v ∈ a.frame.roots) : v ∈ m.roots :=
  List.mem_flatMap.2 ⟨a, ha, hv⟩

theorem Renaming.Keeps.activations {ρ σ : Renaming} {vs vs' : List Value} (hk : ρ.Keeps σ vs vs')
    {acts acts' : List Activation} (h : List.Forall₂ ρ.Activations acts acts')
    (hmem : ∀ a ∈ acts, ∀ v ∈ a.frame.roots, v ∈ vs) (hmem' : ∀ a ∈ acts', ∀ v ∈ a.frame.roots, v ∈ vs') :
    List.Forall₂ σ.Activations acts acts' := by
  induction h with
  | nil => exact .nil
  | cons ha _ ih =>
      refine .cons ⟨ha.frame.keep hk (hmem _ List.mem_cons_self) (hmem' _ List.mem_cons_self), ha.use⟩ (ih ?_ ?_)
      · exact fun b hb => hmem b (List.mem_cons_of_mem _ hb)
      · exact fun b hb => hmem' b (List.mem_cons_of_mem _ hb)

/-- What a virtual call is found to lead to in both runs. -/
inductive Renaming.VirtualCalls (ρ : Renaming) : Machine.VirtualCall → Machine.VirtualCall → Prop where
  | toIntrinsic (i : Intrinsic) : VirtualCalls ρ (.toIntrinsic i) (.toIntrinsic i)
  | toMethod {h k : Handle} (hrel : ρ.rel h k) : VirtualCalls ρ (.toMethod h) (.toMethod k)

/-- What two calls answer to related errors. -/
inductive Renaming.Answers (ρ : Renaming) : Machine.Answer → Machine.Answer → Prop where
  | handles {fault fault' : Fault} (hfault : ρ.Faults fault fault') (index : Nat) :
      Answers ρ (.handles fault index) (.handles fault' index)
  | passes {e e' : Error} (he : ρ.Errors e e') : Answers ρ (.passes e) (.passes e')

theorem Renaming.Frames.answer {ρ : Renaming} {f f' : Frame} (h : ρ.Frames f f') (p : Program) {e e' : Error}
    (he : ρ.Errors e e') : ρ.Answers (f.answer p e) (f'.answer p e') := by
  have hfault := he.toFault?
  unfold Frame.answer Frame.answerAt
  rw [← h.currentOffset, ← h.candidates]
  generalize e.toFault? = fault at hfault ⊢
  generalize e'.toFault? = fault' at hfault ⊢
  cases hfault with
  | none => exact .passes he
  | @some fault fault' hfault =>
      have hhandler := h.handlerAmong p hfault (f.candidates f.currentOffset)
      dsimp only
      generalize f.handlerAmong p fault (f.candidates f.currentOffset) = r at hhandler ⊢
      generalize f'.handlerAmong p fault' (f.candidates f.currentOffset) = r' at hhandler ⊢
      cases hhandler with
      | error he' => exact .passes he'
      | @ok index index' hindex =>
          subst hindex
          cases index with
          | none => exact .passes he
          | some index => exact .handles hfault index

theorem Console.writeLine_congr {c c' : Console} (text : String) (h : c = c') :
    (c.writeLine text).2 = (c'.writeLine text).2 ∧ (c.writeLine text).1 = (c'.writeLine text).1 :=
  h ▸ ⟨rfl, rfl⟩

theorem Console.flush_congr {c c' : Console} (h : c = c') : c.flush.2 = c'.flush.2 ∧ c.flush.1 = c'.flush.1 :=
  h ▸ ⟨rfl, rfl⟩

/-- What two runs of a program have in common, and that its operations keep it. The runs may differ in whether a return
collects. Their consoles are the same unless the coupling says otherwise. -/
structure Coupling (p : Program) (config config' : Config) where
  Heaps : Renaming → Heap → Heap → Prop
  Memos : Dispatch → Dispatch → Prop
  Consoles : Console → Console → Prop := Eq
  shift : Nat
  maxCallDepth : config.maxCallDepth = config'.maxCallDepth
  verifyBodies : config.verifyBodies = config'.verifyBodies
  object : ∀ {ρ heap heap' h k}, Heaps ρ heap heap' → ρ.rel h k →
    ∃ o o', heap.get? h = some o ∧ heap'.get? k = some o' ∧ ρ.Objects o o'
  store : ∀ {ρ heap heap' h k v v'} (key : String), Heaps ρ heap heap' → ρ.rel h k → ρ.Values v v' →
    Heaps ρ (heap.store h key v) (heap'.store k key v')
  allocate : ∀ {ρ heap heap'} (type : Token) (typeName : String) (keys : List String),
    Heaps ρ heap heap' → ∃ σ : Renaming, σ.shift = ρ.shift ∧ (∀ h k, ρ.rel h k → σ.rel h k) ∧
      σ.rel (heap.allocate type typeName keys).2 (heap'.allocate type typeName keys).2 ∧
      Heaps σ (heap.allocate type typeName keys).1 (heap'.allocate type typeName keys).1
  atReturn : ∀ {ρ heap heap' roots roots'}, Heaps ρ heap heap' → List.Forall₂ ρ.Values roots roots' →
    ∃ σ : Renaming, σ.shift = ρ.shift ∧ ρ.Keeps σ roots roots' ∧
      Heaps σ (heap.atReturn config roots) (heap'.atReturn config' roots')
  resolve : ∀ {d d' site target} (type : Token), p.virtualTarget site = .ok (some target) → Memos d d' →
    (p.resolveIn d site type target.name target.signature.paramCount).2 =
        (p.resolveIn d' site type target.name target.signature.paramCount).2 ∧
      Memos (p.resolveIn d site type target.name target.signature.paramCount).1
        (p.resolveIn d' site type target.name target.signature.paramCount).1
  writeLine : ∀ {c c'} (text : String), Consoles c c' →
    (c.writeLine text).2 = (c'.writeLine text).2 ∧ Consoles (c.writeLine text).1 (c'.writeLine text).1 := by
      exact @Console.writeLine_congr
  flush : ∀ {c c'}, Consoles c c' → c.flush.2 = c'.flush.2 ∧ Consoles c.flush.1 c'.flush.1 := by
      exact @Console.flush_congr

namespace Coupling

variable {p : Program} {config config' : Config} (K : Coupling p config config')

/-- Machines in lockstep. -/
structure Machines (ρ : Renaming) (m m' : Machine) : Prop where
  heaps : K.Heaps ρ m.heap m'.heap
  activations : List.Forall₂ ρ.Activations m.activations m'.activations
  memos : K.Memos m.dispatch m'.dispatch
  console : K.Consoles m.console m'.console
  fresh : m'.fresh = m.fresh + ρ.shift
  shift : ρ.shift = K.shift

/-- Steps of machines in lockstep: both go on, both return related values, or both fail with related errors. -/
inductive Outcomes : Outcome → Outcome → Prop where
  | running {ρ : Renaming} {m m' : Machine} (hm : K.Machines ρ m m') : Outcomes (.running m) (.running m')
  | returned {ρ : Renaming} {m m' : Machine} {v v' : Option Value} (hm : K.Machines ρ m m')
      (hv : Option.Rel ρ.Values v v') : Outcomes (.returned m v) (.returned m' v')
  | failed {ρ : Renaming} {m m' : Machine} {e e' : Error} (hm : K.Machines ρ m m') (he : ρ.Errors e e') :
      Outcomes (.failed m e) (.failed m' e')

variable {K} {ρ : Renaming}

/-! ### The heap -/

theorem readField {heap heap' : Heap} {h k : Handle} (hheaps : K.Heaps ρ heap heap') (hrel : ρ.rel h k)
    (key : String) : ρ.Agree ρ.Values (heap.readField h key) (heap'.readField k key) := by
  obtain ⟨o, o', hget, hget', ho⟩ := K.object hheaps hrel
  have hfield := ho.field? key
  unfold Heap.readField Heap.object
  rw [hget, hget']
  dsimp only [bind, Except.bind]
  rw [ho.typeName]
  generalize o.field? key = field at hfield ⊢
  generalize o'.field? key = field' at hfield ⊢
  cases hfield with
  | none => exact .error (.plain rfl)
  | some hv => exact .ok hv

theorem writeField {heap heap' : Heap} {h k : Handle} {v v' : Value} (hheaps : K.Heaps ρ heap heap')
    (hrel : ρ.rel h k) (key : String) (hv : ρ.Values v v') :
    ρ.Agree (K.Heaps ρ) (heap.writeField h key v) (heap'.writeField k key v') := by
  obtain ⟨o, o', hget, hget', ho⟩ := K.object hheaps hrel
  have hfield := ho.field? key
  cases hf : o.field? key with
  | none =>
      cases hf' : o'.field? key with
      | some w' =>
          rw [hf, hf'] at hfield
          cases hfield
      | none =>
          have hfails : heap.writeField h key v = .error (.fieldNotPresent key o.typeName) := by
            simp [Heap.writeField, Heap.object, hget, hf, bind, Except.bind]
          have hfails' : heap'.writeField k key v' = .error (.fieldNotPresent key o.typeName) := by
            simp [Heap.writeField, Heap.object, hget', hf', bind, Except.bind, ho.typeName]
          rw [hfails, hfails']
          exact .error (.plain rfl)
  | some w =>
      cases hf' : o'.field? key with
      | none =>
          rw [hf, hf'] at hfield
          cases hfield
      | some w' =>
          rw [Heap.writeField_eq_ok_iff.2 ⟨o, w, hget, hf, rfl⟩, Heap.writeField_eq_ok_iff.2 ⟨o', w', hget', hf', rfl⟩]
          exact .ok (K.store key hheaps hrel hv)

namespace Machines

variable {m m' : Machine} (hm : K.Machines ρ m m')

include hm

theorem withActivations {acts acts' : List Activation} (hacts : List.Forall₂ ρ.Activations acts acts') :
    K.Machines ρ { m with activations := acts } { m' with activations := acts' } :=
  { hm with activations := hacts }

theorem callDepth : m.callDepth = m'.callDepth :=
  hm.activations.length_eq

theorem roots : List.Forall₂ ρ.Values m.roots m'.roots := by
  unfold Machine.roots
  exact List.rel_flatMap hm.activations fun _ _ ha => ha.frame.roots

theorem textOf {v v' : Value} (hv : ρ.Values v v') : m.textOf v = m'.textOf v' := by
  cases hv with
  | object hrel =>
      obtain ⟨o, o', hget, hget', ho⟩ := K.object hm.heaps hrel
      simp [Machine.textOf, hget, hget', ho.typeName]
  | fault i hfault => exact (Renaming.Values.fault i hfault).text rfl
  | _ => rfl

/-- Throwing related values raises related errors. -/
theorem raise {v v' : Value} (hv : ρ.Values v v') : ρ.Errors (Machine.raise p m v) (Machine.raise p m' v') := by
  have htext := hm.textOf hv
  cases hv with
  | null => exact .plain rfl
  | object hrel =>
      obtain ⟨o, o', hget, hget', ho⟩ := K.object hm.heaps hrel
      simp only [Machine.raise, Heap.object, hget, hget', ho.type]
      exact .thrown none (.ofObject _ hrel)
  | fault i hfault => exact .thrown (some i) hfault
  | int n => exact .thrown none (.builtin _ _)
  | str text => exact .thrown none (.builtin _ _)
  | list i items => exact .thrown none (.builtin _ _)

theorem identityOf {e e' : Error} (he : ρ.Errors e e') : m'.identityOf e' = m.identityOf e + ρ.shift := by
  cases he with
  | plain hplain =>
      cases e with
      | thrown => cases hplain
      | _ => exact hm.fresh
  | thrown identity _ =>
      cases identity with
      | none => exact hm.fresh
      | some i => rfl

theorem loadField (field : Token) {f f' : Frame} (hf : ρ.Frames f f') :
    ρ.Agree ρ.Frames (Machine.loadField p m f field) (Machine.loadField p m' f' field) := by
  apply Renaming.Agree.bind_lookup (p.index.fieldKeyOf_fails p.image field)
  intro key
  apply hf.pop.bind
  intro r r' hpop
  apply (hpop.1.objectOf "ldfld").bind
  intro h k hrel
  exact (readField hm.heaps hrel key).bind fun v v' hv => .ok (hpop.2.push hv).next

theorem storeField (field : Token) {f f' : Frame} (hf : ρ.Frames f f') :
    ρ.Agree (fun r r' => ρ.Frames r.1 r'.1 ∧ K.Heaps ρ r.2 r'.2) (Machine.storeField p m f field)
      (Machine.storeField p m' f' field) := by
  apply Renaming.Agree.bind_lookup (p.index.fieldKeyOf_fails p.image field)
  intro key
  apply hf.pop.bind
  intro r r' hvalue
  apply hvalue.2.pop.bind
  intro s s' howner
  apply (howner.1.objectOf "stfld").bind
  intro h k hrel
  exact (writeField hm.heaps hrel key hvalue.1).bind fun heap heap' hheaps => .ok ⟨howner.2.next, hheaps⟩

end Machines

/-! ### Calls -/

section Calls

variable {m m' : Machine} {a a' : Activation} {below below' : List Activation} {frame frame' : Frame}
  {args args' : List Value}

theorem settle (hm : K.Machines ρ m m') (ha : ρ.Activations a a')
    (hbelow : List.Forall₂ ρ.Activations below below') {r r' : Except Error Frame} (hr : ρ.Agree ρ.Frames r r') :
    K.Outcomes (m.settle a below r) (m'.settle a' below' r') := by
  cases hr with
  | ok hf => exact .running (hm.withActivations (.cons ⟨hf, ha.use⟩ hbelow))
  | error he => exact .failed hm he

theorem frameFor (K : Coupling p config config') (method : Token) (signature : Signature)
    (hargs : List.Forall₂ ρ.Values args args') :
    ρ.Agree ρ.Frames (p.frameFor config method signature args) (p.frameFor config' method signature args') := by
  apply Renaming.Agree.bind_lookup (p.image.method_fails method)
  intro row
  have hstart : ∀ code, ρ.Agree ρ.Frames (.ok (.start method code row.regions args row.locals))
      (.ok (.start method code row.regions args' row.locals)) :=
    fun code => .ok (Renaming.frames_start method code row.regions row.locals hargs)
  rw [← K.verifyBodies]
  dsimp only
  split
  · refine (Renaming.Agree.of_plain ?_).bind fun code code' hcode => hcode ▸ hstart code
    exact (Program.verifiedBody_fails signature row).mono fun _ => Error.isPlain_of_isBody
  · refine (Renaming.Agree.of_plain ?_).bind fun code code' hcode => hcode ▸ hstart code
    exact (decode_fails row.code).mono fun _ => Error.isPlain_of_isBody

theorem enter (hm : K.Machines ρ m m') (method : Token) (use : ResultUse) (hargs : List.Forall₂ ρ.Values args args') :
    ρ.Agree (K.Machines ρ) (m.enter p config method args use) (m'.enter p config' method args' use) := by
  apply Renaming.Agree.bind_lookup (p.index.methodInfo_fails method)
  intro info
  rw [← hargs.length_eq, ← K.maxCallDepth, ← hm.callDepth]
  split
  · exact .error (.plain rfl)
  · split
    · exact .error (.plain rfl)
    · apply (K.frameFor method info.signature hargs).bind
      intro f f' hf
      exact .ok (hm.withActivations (.cons ⟨hf, rfl⟩ hm.activations))

theorem callWith (hm : K.Machines ρ m m') (ha : ρ.Activations a a')
    (hbelow : List.Forall₂ ρ.Activations below below') (hf : ρ.Frames frame frame') (method : Token)
    (hargs : List.Forall₂ ρ.Values args args') (use : ResultUse) :
    K.Outcomes (m.callWith p config a below frame method args use)
      (m'.callWith p config' a' below' frame' method args' use) := by
  have hacts : List.Forall₂ ρ.Activations ({ a with frame } :: below) ({ a' with frame := frame' } :: below') :=
    .cons ⟨hf, ha.use⟩ hbelow
  have hcall := enter (hm.withActivations hacts) method use hargs
  unfold Machine.callWith
  generalize Machine.enter p config _ method args use = r at hcall ⊢
  generalize Machine.enter p config' _ method args' use = r' at hcall ⊢
  cases hcall with
  | ok hm' => exact .running hm'
  | error he => exact .failed hm he

/-- Intrinsics write the same lines and give related values. -/
theorem intrinsic (hm : K.Machines ρ m m') (i : Intrinsic) (hargs : List.Forall₂ ρ.Values args args') :
    K.Machines ρ (m.intrinsic i args).1 (m'.intrinsic i args').1 ∧
      ρ.Agree ρ.Values (m.intrinsic i args).2 (m'.intrinsic i args').2 := by
  have htexts : args.map m.textOf = args'.map m'.textOf := by
    have hrel := List.rel_map (R := ρ.Values) (P := Eq) (fun _ _ hv => hm.textOf hv) hargs
    rwa [List.forall₂_eq_eq_eq] at hrel
  cases i with
  | concat =>
      refine ⟨hm, ?_⟩
      change ρ.Agree ρ.Values (.ok (.str (String.join (args.map m.textOf))))
        (.ok (.str (String.join (args'.map m'.textOf))))
      rw [htexts]
      exact .ok (.str _)
  | writeLine =>
      obtain ⟨heap, activations, dispatch, console, fresh⟩ := m
      obtain ⟨heap', activations', dispatch', console', fresh'⟩ := m'
      unfold Machine.intrinsic
      rw [htexts]
      dsimp only
      obtain ⟨hsame, hconsoles⟩ := K.writeLine (" ".intercalate _) hm.console
      refine ⟨{ hm with console := hconsoles }, ?_⟩
      rw [← hsame]
      cases hresult : (console.writeLine _).2 with
      | ok => exact .ok .null
      | error e =>
          obtain ⟨detail, rfl⟩ := Console.writeLine_fails hresult
          exact .error (.plain rfl)

theorem intrinsicWith (hm : K.Machines ρ m m') (ha : ρ.Activations a a')
    (hbelow : List.Forall₂ ρ.Activations below below') (hf : ρ.Frames frame frame') (i : Intrinsic)
    (hargs : List.Forall₂ ρ.Values args args') (use : ResultUse) :
    K.Outcomes (m.intrinsicWith a below frame i args use) (m'.intrinsicWith a' below' frame' i args' use) := by
  obtain ⟨hm₁, hresult⟩ := intrinsic hm i hargs
  unfold Machine.intrinsicWith
  generalize m.intrinsic i args = r at hm₁ hresult ⊢
  generalize m'.intrinsic i args' = r' at hm₁ hresult ⊢
  obtain ⟨m₁, r⟩ := r
  obtain ⟨m₁', r'⟩ := r'
  cases hresult with
  | error he => exact .failed hm₁ he
  | ok hv =>
      refine settle hm₁ ha hbelow (.ok ?_)
      split
      · exact (hf.push hv).next
      · exact hf.next

theorem call (hm : K.Machines ρ m m') (ha : ρ.Activations a a')
    (hbelow : List.Forall₂ ρ.Activations below below') (token : Token) :
    K.Outcomes (m.call p config a below token) (m'.call p config' a' below' token) := by
  unfold Machine.call
  split
  · have hinfo := p.index.methodInfo_fails token
    generalize p.index.methodInfo token = info at hinfo ⊢
    cases info with
    | error e => exact .failed hm (.plain (Error.isPlain_of_isLookup (hinfo e rfl)))
    | ok info =>
        have hpop := ha.frame.popArgs info.signature.argCount
        dsimp only
        generalize a.frame.popArgs info.signature.argCount = r at hpop ⊢
        generalize a'.frame.popArgs info.signature.argCount = r' at hpop ⊢
        cases hpop with
        | error he => exact .failed hm he
        | ok h => exact callWith hm ha hbelow h.2 token h.1 _
  · have hmember : ρ.Agree
        (fun r r' => r.1 = r'.1 ∧ r.2.1 = r'.2.1 ∧ List.Forall₂ ρ.Values r.2.2.1 r'.2.2.1 ∧ ρ.Frames r.2.2.2 r'.2.2.2)
        (Machine.call.member p a token) (Machine.call.member p a' token) := by
      apply Renaming.Agree.bind_lookup (p.image.memberRef_fails token)
      intro member
      apply Renaming.Agree.bind_lookup (p.memberSignature_fails member)
      intro signature
      apply (ha.frame.popArgs signature.argCount).bind
      intro r r' hpop
      apply Renaming.Agree.bind_lookup (p.intrinsicOf_fails member)
      intro i
      cases i with
      | none => exact .error (.plain rfl)
      | some i => exact .ok ⟨rfl, rfl, hpop.1, hpop.2⟩
    generalize Machine.call.member p a token = r at hmember ⊢
    generalize Machine.call.member p a' token = r' at hmember ⊢
    cases hmember with
    | error he => exact .failed hm he
    | @ok r r' h =>
        obtain ⟨i, signature, args, frame⟩ := r
        obtain ⟨i', signature', args', frame'⟩ := r'
        obtain ⟨rfl, rfl, hargs, hf⟩ := h
        exact intrinsicWith hm ha hbelow hf i hargs _
  · exact .failed hm (.plain rfl)

theorem virtualCall (target : VirtualTarget) (hargs : List.Forall₂ ρ.Values args args') :
    ρ.Agree ρ.VirtualCalls (Machine.virtualCall p target args) (Machine.virtualCall p target args') := by
  have hhead := Renaming.rel_head? hargs
  unfold Machine.virtualCall
  generalize args.head? = receiver at hhead ⊢
  generalize args'.head? = receiver' at hhead ⊢
  cases hhead with
  | none => exact .error (.plain rfl)
  | some hv =>
      dsimp only
      cases target.member with
      | none =>
          cases hv with
          | object hrel => exact .ok (.toMethod hrel)
          | _ => exact .error (.plain rfl)
      | some member =>
          have hintrinsic := p.intrinsicOf_fails member
          cases hv with
          | null => exact .error (.plain rfl)
          | object hrel =>
              apply Renaming.Agree.bind_lookup hintrinsic
              intro i
              cases i with
              | some i => exact .ok (.toIntrinsic i)
              | none => exact .ok (.toMethod hrel)
          | _ =>
              apply Renaming.Agree.bind_lookup hintrinsic
              intro i
              cases i with
              | some i => exact .ok (.toIntrinsic i)
              | none => exact .error (.plain rfl)

/-- Virtual calls on related receivers find the same method. -/
theorem resolveVirtual (hm : K.Machines ρ m m') {site : Token} {target : VirtualTarget}
    (htarget : p.virtualTarget site = .ok (some target)) {h k : Handle} (hrel : ρ.rel h k) :
    K.Machines ρ (m.resolveVirtual p site h target.name target.signature.paramCount).1
        (m'.resolveVirtual p site k target.name target.signature.paramCount).1 ∧
      ρ.Agree Eq (m.resolveVirtual p site h target.name target.signature.paramCount).2
        (m'.resolveVirtual p site k target.name target.signature.paramCount).2 := by
  obtain ⟨o, o', hget, hget', ho⟩ := K.object hm.heaps hrel
  rw [Machine.resolveVirtual_eq hget, Machine.resolveVirtual_eq hget', ← ho.type, ← ho.typeName]
  obtain ⟨hfound, hmemos⟩ := K.resolve o.type htarget hm.memos
  refine ⟨{ hm with memos := hmemos }, ?_⟩
  dsimp only
  rw [← hfound]
  split
  · exact .ok rfl
  · exact .error (.plain rfl)

theorem callVirtual (hm : K.Machines ρ m m') (ha : ρ.Activations a a')
    (hbelow : List.Forall₂ ρ.Activations below below') (token : Token) :
    K.Outcomes (m.callVirtual p config a below token) (m'.callVirtual p config' a' below' token) := by
  unfold Machine.callVirtual
  cases htarget : p.virtualTarget token with
  | error e => exact .failed hm (.plain (Error.isPlain_of_isLookup (p.virtualTarget_fails token e htarget)))
  | ok target =>
      cases target with
      | none => exact call hm ha hbelow token
      | some target =>
          have hpop := ha.frame.popArgs target.signature.argCount
          dsimp only
          generalize a.frame.popArgs target.signature.argCount = r at hpop ⊢
          generalize a'.frame.popArgs target.signature.argCount = r' at hpop ⊢
          cases hpop with
          | error he => exact .failed hm he
          | @ok r r' hpop =>
              obtain ⟨args, frame⟩ := r
              obtain ⟨args', frame'⟩ := r'
              obtain ⟨hargs, hf⟩ := hpop
              have hcall := virtualCall (p := p) target hargs
              dsimp only
              generalize Machine.virtualCall p target args = c at hcall ⊢
              generalize Machine.virtualCall p target args' = c' at hcall ⊢
              cases hcall with
              | error he => exact .failed hm he
              | ok hcall =>
                  cases hcall with
                  | toIntrinsic i => exact intrinsicWith hm ha hbelow hf i hargs _
                  | toMethod hrel =>
                      obtain ⟨hm₁, hmethod⟩ := resolveVirtual hm htarget hrel
                      dsimp only
                      generalize m.resolveVirtual p token _ target.name target.signature.paramCount = r at hm₁ hmethod ⊢
                      generalize m'.resolveVirtual p token _ target.name target.signature.paramCount = r'
                        at hm₁ hmethod ⊢
                      obtain ⟨m₁, r⟩ := r
                      obtain ⟨m₁', r'⟩ := r'
                      cases hmethod with
                      | error he => exact .failed hm₁ he
                      | ok heq =>
                          subst heq
                          exact callWith hm₁ ha hbelow hf _ hargs _

theorem newObject (hm : K.Machines ρ m m') (ha : ρ.Activations a a')
    (hbelow : List.Forall₂ ρ.Activations below below') (token : Token) :
    K.Outcomes (m.newObject p config a below token) (m'.newObject p config' a' below' token) := by
  have hresolved := p.newObject_resolved_fails token
  unfold Machine.newObject
  generalize Machine.newObject.resolved p token = r at hresolved ⊢
  cases r with
  | error e => exact .failed hm (.plain (Error.isPlain_of_isLookup (hresolved e rfl)))
  | ok r =>
      obtain ⟨constructor, type, signature, typeName⟩ := r
      obtain ⟨heap, activations, dispatch, console, fresh⟩ := m
      obtain ⟨heap', activations', dispatch', console', fresh'⟩ := m'
      obtain ⟨σ, hshift, hextends, hmade, hheaps⟩ :=
        K.allocate type typeName (p.index.fieldKeysOf type) hm.heaps
      -- The renaming grows by the new object, and everything in flight stays related.
      have hkeep : ∀ {b b' : Activation}, ρ.Activations b b' → σ.Activations b b' := fun hb =>
        ⟨hb.frame.keep (Renaming.keeps_of_extends hshift hextends _ _) (fun _ hv => hv) (fun _ hv => hv), hb.use⟩
      have hm₁ : K.Machines σ
          ⟨(heap.allocate type typeName (p.index.fieldKeysOf type)).1, activations, dispatch, console, fresh⟩
          ⟨(heap'.allocate type typeName (p.index.fieldKeysOf type)).1, activations', dispatch', console', fresh'⟩ :=
        { heaps := hheaps, activations := hm.activations.imp fun _ _ => hkeep, memos := hm.memos, console := hm.console,
          fresh := by rw [hshift, hm.fresh], shift := by rw [hshift, hm.shift] }
      have hpop := (hkeep ha).frame.popArgs signature.paramCount
      dsimp only
      generalize a.frame.popArgs signature.paramCount = r at hpop ⊢
      generalize a'.frame.popArgs signature.paramCount = r' at hpop ⊢
      cases hpop with
      | error he => exact .failed hm₁ he
      | ok hpop =>
          exact callWith hm₁ (hkeep ha) (hbelow.imp fun _ _ => hkeep) (hpop.2.push (.object hmade)) constructor
            (.cons (.object hmade) hpop.1) .discard

/-! ### Returns -/

theorem deliver (hm : K.Machines ρ m m') (use : ResultUse) (hbelow : List.Forall₂ ρ.Activations below below')
    {v v' : Option Value} (hv : Option.Rel ρ.Values v v') :
    K.Outcomes (m.deliver use below v) (m'.deliver use below' v') := by
  have hpushed : ρ.Values (v.getD .null) (v'.getD .null) := by
    cases hv with
    | none => exact .null
    | some hv => exact hv
  cases hbelow with
  | nil => cases use <;> exact .returned (hm.withActivations .nil) hv
  | cons hb hrest =>
      cases use with
      | host => exact .returned (hm.withActivations (.cons hb hrest)) hv
      | push => exact .running (hm.withActivations (.cons ⟨(hb.frame.push hpushed).next, hb.use⟩ hrest))
      | discard => exact .running (hm.withActivations (.cons ⟨hb.frame.next, hb.use⟩ hrest))

/-- A return keeps the calls in flight and the returned value related, also if only one of the machines collects. -/
theorem returnFrom (hm : K.Machines ρ m m') (ha : ρ.Activations a a')
    (hbelow : List.Forall₂ ρ.Activations below below') :
    K.Outcomes (m.returnFrom config a below) (m'.returnFrom config' a' below') := by
  obtain ⟨frame, use⟩ := a
  obtain ⟨frame', use'⟩ := a'
  obtain ⟨hf, rfl⟩ : ρ.Frames frame frame' ∧ use = use' := ⟨ha.frame, ha.use⟩
  have hpopped : ρ.Activations ⟨{ frame with stack := frame.stack.tail }, use⟩
      ⟨{ frame' with stack := frame'.stack.tail }, use⟩ :=
    ⟨{ hf with stack := Renaming.forall₂_tail hf.stack }, rfl⟩
  have hm₁ := hm.withActivations (.cons hpopped hbelow)
  have hvalue := Renaming.rel_head? hf.stack
  rw [Machine.returnFrom_eq, Machine.returnFrom_eq]
  dsimp only
  generalize frame.stack.head? = v at hvalue ⊢
  generalize frame'.stack.head? = v' at hvalue ⊢
  have hvalues : List.Forall₂ ρ.Values v.toList v'.toList := by
    cases hvalue with
    | none => exact .nil
    | some hv => exact .cons hv .nil
  obtain ⟨σ, hshift, hkeeps, hheaps⟩ := K.atReturn hm.heaps (List.rel_append hm₁.roots hvalues)
  have hacts := hkeeps.activations hm₁.activations
    (fun b hb v hv => List.mem_append_left _ (Machine.mem_roots hb hv))
    (fun b hb v hv => List.mem_append_left _ (Machine.mem_roots hb hv))
  refine deliver ?_ use (List.forall₂_cons.1 hacts).2 ?_
  · exact ⟨hheaps, hacts, hm.memos, hm.console, hshift ▸ hm.fresh, hshift ▸ hm.shift⟩
  · cases hvalue with
    | none => exact .none
    | some hv => exact .some (hkeeps _ (by simp) _ (by simp) hv)

/-! ### Instructions -/

/-- **An operation in lockstep.** -/
theorem perform (hm : K.Machines ρ m m') (ha : ρ.Activations a a')
    (hbelow : List.Forall₂ ρ.Activations below below') (op : Operation) :
    K.Outcomes (m.perform p config a below op) (m'.perform p config' a' below' op) := by
  have hf := ha.frame
  have onFrame : ∀ {r r'}, ρ.Agree ρ.Frames r r' → K.Outcomes (m.settle a below r) (m'.settle a' below' r') :=
    fun hr => settle hm ha hbelow hr
  cases op with
  | nop => exact onFrame (.ok hf.next)
  | endfinally => exact onFrame (.ok hf.next)
  | ldarg slot => exact onFrame (hf.load .argument slot.toNat)
  | starg slot => exact onFrame (hf.store .argument slot.toNat)
  | ldloc slot => exact onFrame (hf.load .localVariable slot.toNat)
  | stloc slot => exact onFrame (hf.store .localVariable slot.toNat)
  | ldnull => exact onFrame (.ok (hf.push .null).next)
  | ldc value => exact onFrame (.ok (hf.push (.int value)).next)
  | ldstr token =>
      have hstring := p.image.userString_fails token
      unfold Machine.perform
      dsimp only
      generalize p.image.userString token = r at hstring ⊢
      cases r with
      | error e => exact onFrame (.error (.plain (Error.isPlain_of_isLookup (hstring e rfl))))
      | ok text => exact onFrame (.ok (hf.push (.str text)).next)
  | dup => exact onFrame hf.duplicate
  | pop => exact onFrame hf.drop
  | arith op => exact onFrame (hf.arithmetic op)
  | neg => exact onFrame hf.negate
  | ceq => exact onFrame (hf.compare .eq)
  | cgt => exact onFrame (hf.compare .gt)
  | clt => exact onFrame (hf.compare .lt)
  | br target => exact onFrame (hf.jumpTo target)
  | brfalse target => exact onFrame (hf.branchOn false target)
  | brtrue target => exact onFrame (hf.branchOn true target)
  | branch relation target => exact onFrame (hf.branchIf relation target)
  | leave target => exact onFrame (hf.leave target)
  | ldfld field => exact onFrame (hm.loadField field hf)
  | stfld field =>
      have hstore := hm.storeField field hf
      unfold Machine.perform
      dsimp only
      generalize Machine.storeField p m a.frame field = r at hstore ⊢
      generalize Machine.storeField p m' a'.frame field = r' at hstore ⊢
      cases hstore with
      | error he => exact .failed hm he
      | ok h =>
          have hm₁ : K.Machines ρ { m with heap := _ } { m' with heap := _ } := { hm with heaps := h.2 }
          exact settle hm₁ ha hbelow (.ok h.1)
  | throw =>
      have hpop := hf.pop
      unfold Machine.perform
      dsimp only
      generalize a.frame.pop = r at hpop ⊢
      generalize a'.frame.pop = r' at hpop ⊢
      cases hpop with
      | error he => exact .failed hm he
      | ok h => exact .failed hm (hm.raise h.1)
  | call token => exact call hm ha hbelow token
  | callvirt token => exact callVirtual hm ha hbelow token
  | newobj token => exact newObject hm ha hbelow token
  | ret => exact returnFrom hm ha hbelow

/-- Related errors find the same handler, or reach the host from both machines. -/
theorem unwind (hm : K.Machines ρ m m') {acts acts' : List Activation} (hacts : List.Forall₂ ρ.Activations acts acts')
    {e e' : Error} (he : ρ.Errors e e') : K.Outcomes (m.unwind p e acts) (m'.unwind p e' acts') := by
  induction hacts generalizing e e' with
  | nil =>
      rw [Machine.unwind, Machine.unwind]
      exact .failed (hm.withActivations .nil) he
  | @cons a a' below below' ha hbelow ih =>
      have hanswer := ha.frame.answer p he
      rw [Machine.unwind_cons, Machine.unwind_cons]
      generalize a.frame.answer p e = answer at hanswer ⊢
      generalize a'.frame.answer p e' = answer' at hanswer ⊢
      cases hanswer with
      | passes he' =>
          dsimp only
          rw [← ha.use]
          split
          · exact .failed (hm.withActivations hbelow) he'
          · exact ih he'
      | @handles fault fault' hfault index =>
          have hvalue := hfault.toValue (m.identityOf e)
          rw [← hm.identityOf he] at hvalue
          refine .running { hm with activations := .cons ⟨?_, ha.use⟩ hbelow, fresh := ?_ }
          · exact { ha.frame with stack := .cons hvalue .nil, ip := rfl }
          · have hfresh := hm.fresh
            dsimp only
            omega

/-- **One step in lockstep.** -/
theorem step (hm : K.Machines ρ m m') : K.Outcomes (m.step p config) (m'.step p config') := by
  have hacts := hm.activations
  unfold Machine.step
  cases hm₀ : m.activations with
  | nil =>
      rw [hm₀, List.forall₂_nil_left_iff] at hacts
      rw [hacts]
      exact .returned hm .none
  | cons a below =>
      rw [hm₀] at hacts
      obtain ⟨a', below', ha, hbelow, hm₀'⟩ := List.forall₂_cons_left_iff.1 hacts
      rw [hm₀']
      dsimp only
      rw [← ha.frame.code, ← ha.frame.ip]
      cases a.frame.code[a.frame.ip]? with
      | none =>
          rw [← ha.use]
          exact deliver hm a.use hbelow .none
      | some i =>
          have hperform := perform hm ha hbelow i.op
          dsimp only
          generalize hleft : m.perform p config a below i.op = outcome at hperform ⊢
          generalize hright : m'.perform p config' a' below' i.op = outcome' at hperform ⊢
          cases hperform with
          | running hm₁ => exact .running hm₁
          | returned hm₁ hv => exact .returned hm₁ hv
          | failed hm₁ he =>
              -- A failed operation leaves the calls in flight, so the new renaming relates them too.
              have hacts₁ := hm₁.activations
              rw [Machine.perform_failed_activations hleft, Machine.perform_failed_activations hright, hm₀, hm₀']
                at hacts₁
              exact unwind hm₁ hacts₁ he

end Calls

/-! ### Runs -/

/-- Runs in lockstep end alike. -/
def Ends {α β : Type} (R : Renaming → α → β → Prop) (r : Machine × Except Error α) (r' : Machine × Except Error β) :
    Prop :=
  ∃ ρ, K.Machines ρ r.1 r'.1 ∧ ρ.Agree (R ρ) r.2 r'.2

variable {m m' : Machine}

/-- **Runs in lockstep.** After any number of steps both have ended, alike, or none has. -/
theorem run (hm : K.Machines ρ m m') (fuel : Nat) :
    Option.Rel (K.Ends fun ρ => Option.Rel ρ.Values) (m.run p config fuel) (m'.run p config' fuel) := by
  induction fuel generalizing ρ m m' with
  | zero => exact .none
  | succ fuel ih =>
      have hstep := step hm
      rw [Machine.run, Machine.run]
      generalize m.step p config = outcome at hstep ⊢
      generalize m'.step p config' = outcome' at hstep ⊢
      cases hstep with
      | running hm₁ => exact ih hm₁
      | returned hm₁ hv => exact .some ⟨_, hm₁, .ok hv⟩
      | failed hm₁ he => exact .some ⟨_, hm₁, .error he⟩

theorem invoke (hm : K.Machines ρ m m') (fuel : Nat) (method : Token) {args args' : List Value}
    (hargs : List.Forall₂ ρ.Values args args') :
    Option.Rel (K.Ends fun ρ => Option.Rel ρ.Values) (m.invoke p config fuel method args)
      (m'.invoke p config' fuel method args') := by
  have henter := enter hm method .host hargs
  unfold Machine.invoke
  generalize m.enter p config method args .host = r at henter ⊢
  generalize m'.enter p config' method args' .host = r' at henter ⊢
  cases henter with
  | ok hm₁ => exact run hm₁ fuel
  | error he => exact .some ⟨ρ, hm, .error he⟩

theorem entryArguments (hm : K.Machines ρ m m') (args : List String) :
    K.Machines ρ (m.entryArguments p args).1 (m'.entryArguments p args).1 ∧
      List.Forall₂ ρ.Values (m.entryArguments p args).2 (m'.entryArguments p args).2 := by
  unfold Machine.entryArguments
  split
  · exact ⟨hm, .nil⟩
  · have hfresh := hm.fresh
    refine ⟨{ hm with fresh := ?_ }, .cons ?_ .nil⟩
    · dsimp only
      omega
    · rw [hfresh]
      exact .list m.fresh args

/-- The consoles are flushed alike, and the results are one exit code. -/
theorem finishEntry (hm : K.Machines ρ m m') {r r' : Except Error (Option Value)}
    (hresult : ρ.Agree (Option.Rel ρ.Values) r r') :
    K.Ends (fun _ => Eq) (m.finishEntry r) (m'.finishEntry r') := by
  cases hresult with
  | error he => exact ⟨ρ, hm, .error he⟩
  | @ok v v' hv =>
      obtain ⟨hsame, hconsoles⟩ := K.flush hm.console
      have hcode : Machine.exitCode v = Machine.exitCode v' := by
        cases hv with
        | none => rfl
        | some hv => rw [Machine.exitCode, Machine.exitCode, Option.bind_some, Option.bind_some, hv.asInt?]
      rw [Machine.finishEntry_ok, Machine.finishEntry_ok, ← hsame, ← hcode]
      refine ⟨ρ, { hm with console := hconsoles }, ?_⟩
      cases hflush : m.console.flush.2 with
      | ok u => exact .ok rfl
      | error e =>
          obtain ⟨detail, rfl⟩ := Console.flush_fails hflush
          exact .error (.plain rfl)

theorem runEntry (hm : K.Machines ρ m m') (fuel : Nat) (args : List String) :
    Option.Rel (K.Ends fun _ => Eq) (m.runEntry p config fuel args) (m'.runEntry p config' fuel args) := by
  obtain ⟨hm₁, hargs⟩ := entryArguments hm args
  have hinvoke := invoke hm₁ fuel p.entryPoint hargs
  unfold Machine.runEntry
  dsimp only
  generalize Machine.invoke p config fuel _ p.entryPoint _ = r at hinvoke ⊢
  generalize Machine.invoke p config' fuel _ p.entryPoint _ = r' at hinvoke ⊢
  cases hinvoke with
  | none => exact .none
  | @some r r' hends =>
      obtain ⟨m₁, result⟩ := r
      obtain ⟨m₁', result'⟩ := r'
      obtain ⟨σ, hm₂, hresult⟩ := hends
      exact .some (finishEntry hm₂ hresult)

end Coupling
end ManagedCode
