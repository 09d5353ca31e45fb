import ManagedCode.Proofs.Calls.Dispatch
import ManagedCode.Proofs.Calls.Failures
import ManagedCode.Proofs.CheckedPrograms

/-! Where errors of arity come from. A caller takes arguments off its stack by the signature it calls with, and the
method that is entered counts them by its own. The two are one signature in a plain call. In a virtual call they agree
if the caller's takes a receiver: the method was found, then or at an earlier call of the site, as one that takes a
receiver and has the caller's number of parameters. That leaves an object made by a static method, and a virtual call by
a reference to a static member. -/

namespace ManagedCode

variable {p : Program} {config : Config}

/-- The operations that may enter a method with another number of arguments than it takes: making an object with a
static method in the constructor's place, and a virtual call by a reference to a static member. -/
inductive Operation.Misfits (p : Program) : Operation → Prop where
  | newobj {token constructor type : Token} {info : MethodInfo}
      (hresolved : p.index.resolveConstructor p.image token = .ok (constructor, type))
      (hinfo : p.index.methodInfo constructor = .ok info) (hstatic : info.signature.isInstance = false) :
      Misfits p (.newobj token)
  | callvirt {token : Token} {member : MemberRef} {signature : Signature} (htable : token.table = .memberRef)
      (hmember : p.image.memberRef token = .ok member) (hsignature : member.signature = some signature)
      (hstatic : signature.isInstance = false) : Misfits p (.callvirt token)

/-- The arguments of every method, the receiver included, can be counted. -/
def Program.CountsFit (p : Program) : Prop :=
  ∀ method info, p.index.methodInfo method = .ok info → info.signature.paramCount + 1 < countLimit

/-- The frame has an argument for every one that its method takes. -/
def Frame.Supplied (p : Program) (f : Frame) : Prop :=
  ∃ info, p.index.methodInfo f.method = .ok info ∧ f.args.length = info.signature.argCount

/-! ### Numbers of arguments -/

theorem Signature.argCount_instance {s : Signature} (h : s.isInstance = true) :
    s.argCount = (s.paramCount + 1) % countLimit := by
  rw [argCount, if_pos h]

/-- The method of a type that a virtual call runs takes a receiver and the parameters that were asked for. -/
theorem Index.argCount_of_resolveVirtual? {index : Index} {type : Token} {name : String} {paramCount : Nat}
    {method : Token} (h : index.resolveVirtual? type name paramCount = some method) :
    ∃ info, index.methodInfo method = .ok info ∧ info.signature.argCount = (paramCount + 1) % countLimit := by
  obtain ⟨typeName, -, hfind⟩ := Option.bind_eq_some_iff.1 h
  have hanswers := List.find?_some hfind
  cases hinfo : index.method? method with
  | none =>
      rw [hinfo] at hanswers
      cases hanswers
  | some info =>
      simp only [hinfo, Option.any_some, answersTo, Bool.not_true, Bool.false_or, Bool.and_eq_true,
        beq_iff_eq] at hanswers
      obtain ⟨⟨-, hcount⟩, hinstance⟩ := hanswers
      refine ⟨info, ?_, ?_⟩
      · rw [methodInfo, hinfo]
      · rw [Signature.argCount_instance hinstance, hcount]

/-- So does the method that the memo has for the call, where its entries are right. -/
theorem Machine.argCount_of_resolveVirtual {m m' : Machine} {site method : Token} {receiver : Handle} {name : String}
    {paramCount : Nat} (hd : m.dispatch.Coherent p) (hasks : p.AsksFor site name paramCount)
    (h : m.resolveVirtual p site receiver name paramCount = (m', .ok method)) :
    ∃ info, p.index.methodInfo method = .ok info ∧ info.signature.argCount = (paramCount + 1) % countLimit := by
  cases hget : m.heap.get? receiver with
  | none =>
      unfold resolveVirtual Heap.object at h
      rw [hget] at h
      cases h
  | some o =>
      rw [resolveVirtual_eq hget, (Program.resolveIn_spec hd hasks o.type).1] at h
      cases hmethod : p.index.resolveVirtual? o.type name paramCount with
      | none =>
          rw [hmethod] at h
          cases h
      | some target =>
          rw [hmethod] at h
          cases h
          exact Index.argCount_of_resolveVirtual? hmethod

/-! ### One operation -/

/-- If the instruction fails for the number of arguments of a call, then the condition holds. -/
def Outcome.Mismatches (cause : Prop) : Outcome → Prop
  | .failed _ (.arityMismatch ..) => cause
  | _ => True

theorem Outcome.mismatches_of_inner {m : Machine} {e : Error} (he : e.isInner = true) (cause : Prop) :
    (Outcome.failed m e).Mismatches cause := by
  cases e with
  | arityMismatch => cases he
  | _ => exact trivial

theorem Outcome.FailsInner.mismatches {outcome : Outcome} (h : outcome.FailsInner) (cause : Prop) :
    outcome.Mismatches cause := by
  cases outcome with
  | failed m e => exact mismatches_of_inner h cause
  | _ => exact trivial

theorem Outcome.Mismatches.of_false {outcome : Outcome} (h : outcome.Mismatches False) (cause : Prop) :
    outcome.Mismatches cause := by
  unfold Mismatches at h ⊢
  split
  · exact h.elim
  · exact trivial

namespace Machine

open Outcome (mismatches_of_inner)

section Operations

variable {m : Machine} {a : Activation} {below : List Activation}

theorem callWith_mismatches {cause : Prop} {frame : Frame} {method : Token} {args : List Value} {use : ResultUse}
    (hargs : ∀ info, p.index.methodInfo method = .ok info → args.length ≠ info.signature.argCount → cause) :
    (m.callWith p config a below frame method args use).Mismatches cause := by
  unfold callWith
  rw [enter_eq]
  cases hcallee : p.calleeFrame config _ method args with
  | ok callee => exact trivial
  | error e =>
      rcases p.calleeFrame_fails config hcallee with hinner | ⟨info, hinfo, hne, rfl⟩ | ⟨rfl, -⟩
      · exact mismatches_of_inner hinner cause
      · exact hargs info hinfo hne
      · exact trivial

/-- A plain call takes its arguments by the signature of the method that it enters. -/
theorem call_mismatches (token : Token) : (m.call p config a below token).Mismatches False := by
  unfold call
  split
  · split
    · next heq => exact mismatches_of_inner ((p.index.methodInfo_fails token).inner_of_lookup _ heq) _
    · next info hinfo =>
      split
      · next heq => exact mismatches_of_inner (a.frame.popArgs_fails _ _ heq) _
      · next heq =>
        refine callWith_mismatches fun info' hinfo' hne => hne ?_
        obtain rfl : info = info' := Except.ok.inj (hinfo.symm.trans hinfo')
        exact (a.frame.popArgs_spec _ _ heq).1
  · split
    · next heq => exact mismatches_of_inner (call_member_fails a token _ heq) _
    · exact (intrinsicWith_inner m a below _ _ _ _).mismatches _
  · exact trivial

/-- A virtual call that takes no receiver goes by the signature of a member. -/
theorem misfits_of_virtualTarget {token : Token} {target : VirtualTarget}
    (h : p.virtualTarget token = .ok (some target)) (hstatic : target.signature.isInstance = false) :
    Operation.Misfits p (.callvirt token) := by
  rcases p.virtualTarget_cases h with
    ⟨info, -, -, hinstance, rfl⟩ | ⟨member, signature, htable, hmember, hsignature, rfl⟩
  · rw [hinstance] at hstatic
    cases hstatic
  · exact .callvirt htable hmember (p.memberSignature_eq_ok_iff.1 hsignature) hstatic

/-- A virtual call that takes a receiver enters a method that does, with as many parameters. -/
theorem callVirtual_mismatches (hd : m.dispatch.Coherent p) (token : Token) :
    (m.callVirtual p config a below token).Mismatches (Operation.Misfits p (.callvirt token)) := by
  unfold callVirtual
  split
  · next heq => exact mismatches_of_inner ((p.virtualTarget_fails token).inner_of_lookup _ heq) _
  · exact (call_mismatches token).of_false _
  · next target htarget =>
    split
    · next heq => exact mismatches_of_inner (a.frame.popArgs_fails _ _ heq) _
    · next args frame hpop =>
      split
      · next heq => exact mismatches_of_inner (virtualCall_fails target _ _ heq) _
      · exact (intrinsicWith_inner m a below _ _ _ _).mismatches _
      · next receiver _ =>
        split
        · next hresolve =>
          have hfails := resolveVirtual_fails (p := p) m token receiver target.name target.signature.paramCount
          rw [hresolve] at hfails
          exact mismatches_of_inner (hfails _ rfl) _
        · next hresolve =>
          refine callWith_mismatches fun info hinfo hne => misfits_of_virtualTarget htarget ?_
          obtain ⟨info', hinfo', hcount⟩ :=
            argCount_of_resolveVirtual hd (Program.asksFor_of_virtualTarget htarget) hresolve
          obtain rfl : info = info' := Except.ok.inj (hinfo.symm.trans hinfo')
          refine Bool.eq_false_iff.2 fun hinstance => hne ?_
          rw [(a.frame.popArgs_spec _ _ hpop).1, Signature.argCount_instance hinstance, hcount]

/-- A constructor is given the object and the parameters of its signature. -/
theorem newObject_mismatches (hcounts : p.CountsFit) (token : Token) :
    (m.newObject p config a below token).Mismatches (Operation.Misfits p (.newobj token)) := by
  unfold newObject
  split
  · next heq => exact mismatches_of_inner ((p.newObject_resolved_fails token).inner_of_lookup _ heq) _
  · next constructor type signature typeName hresolved =>
    dsimp only
    split
    · next heq => exact mismatches_of_inner (a.frame.popArgs_fails _ _ heq) _
    · next args frame hpop =>
      refine callWith_mismatches fun info hinfo hne => ?_
      obtain ⟨hconstructor, info', hinfo', rfl⟩ := p.newObject_resolved_ok hresolved
      obtain rfl : info = info' := Except.ok.inj (hinfo.symm.trans hinfo')
      refine .newobj hconstructor hinfo (Bool.eq_false_iff.2 fun hinstance => hne ?_)
      rw [List.length_cons, (a.frame.popArgs_spec _ _ hpop).1, Signature.argCount_instance hinstance,
        Nat.mod_eq_of_lt (hcounts _ _ hinfo)]

/-- **An instruction that fails for a number of arguments** is one that may enter a method with another number than it
takes. -/
theorem perform_mismatches (hcounts : p.CountsFit) (hd : m.dispatch.Coherent p) (op : Operation) :
    (m.perform p config a below op).Mismatches (op.Misfits p) := by
  cases op with
  | call token => exact (call_mismatches token).of_false _
  | callvirt token => exact callVirtual_mismatches hd token
  | newobj token => exact newObject_mismatches hcounts token
  | _ => exact (perform_inner m a below rfl).mismatches _

end Operations

/-! ### The frames of a run -/

/-- The frames of the calls down to the host's have their arguments. -/
def Supplies (p : Program) (acts : List Activation) : Prop :=
  ∀ a ∈ ownCalls acts, a.frame.Supplied p

theorem supplies_cons {a : Activation} {below : List Activation} :
    Supplies p (a :: below) ↔ a.frame.Supplied p ∧ (a.use ≠ .host → Supplies p below) := by
  unfold Supplies
  rw [ownCalls]
  split
  · next huse => simp [huse]
  · next huse => simp [huse]

theorem Starts.supplied {callee : Frame} (h : Starts p config callee) : callee.Supplied p := by
  obtain ⟨method, info, args, hinfo, hargs, hframe⟩ := h
  obtain ⟨row, -, hframe⟩ := bind_eq_ok_iff.1 hframe
  have hcallee : ∀ code : Except Error (List Instruction),
      (code >>= fun code => pure (Frame.start method code row.regions args row.locals)) = .ok callee →
        callee.Supplied p := by
    intro code h
    obtain ⟨code, -, h⟩ := bind_eq_ok_iff.1 h
    cases h
    exact ⟨info, hinfo, hargs⟩
  dsimp only at hframe
  split at hframe
  · exact hcallee _ hframe
  · exact hcallee _ hframe

theorem supplied_of_sameBody {f f' : Frame} (h : f.Supplied p) (hbody : f.SameBody f') : f'.Supplied p := by
  obtain ⟨info, hinfo, hargs⟩ := h
  exact ⟨info, hbody.method ▸ hinfo, hbody.args.trans hargs⟩

theorem Effect.supplies {acts : List Activation} {a : Activation} {below : List Activation} {m : Machine}
    (h : Effect p config acts a below (.running m)) (hacts : Supplies p (a :: below)) :
    Supplies p m.activations := by
  obtain ⟨ha, hbelow⟩ := supplies_cons.1 hacts
  cases h with
  | stays hbody hacts' =>
      rw [hacts']
      exact supplies_cons.2 ⟨supplied_of_sameBody ha hbody, hbelow⟩
  | calls hbody hcallee _ _ hacts' =>
      rw [hacts']
      exact supplies_cons.2 ⟨hcallee.supplied, fun _ => supplies_cons.2 ⟨supplied_of_sameBody ha hbody, hbelow⟩⟩
  | resumes huse heq hbody hacts' =>
      obtain ⟨hb, hrest⟩ := supplies_cons.1 (heq ▸ hbelow huse)
      rw [hacts']
      exact supplies_cons.2 ⟨supplied_of_sameBody hb hbody, hrest⟩

theorem unwind_supplies {m m' : Machine} {e : Error} {acts : List Activation} (hacts : Supplies p acts)
    (h : m.unwind p e acts = .running m') : Supplies p m'.activations := by
  refine (unwind_invariant (fun a below huse hleft => ?_) (fun a below frame hbody hleft => ?_) hacts h).1
  · exact (supplies_cons.1 hleft).2 huse
  · obtain ⟨ha, hbelow⟩ := supplies_cons.1 hleft
    exact supplies_cons.2 ⟨supplied_of_sameBody ha hbody, hbelow⟩

theorem step_supplies {m m' : Machine} (hm : Supplies p m.activations) (h : m.step p config = .running m') :
    Supplies p m'.activations := by
  unfold step at h
  split at h
  · cases h
  · next a below hacts =>
    rw [hacts] at hm
    split at h
    · have heffect : Effect p config (a :: below) a below (m.deliver a.use below none) := deliver_effect rfl _ _
      rw [h] at heffect
      exact heffect.supplies hm
    · next i _ =>
      have heffect : Effect p config m.activations a below (m.perform p config a below i.op) := perform_effect i.op
      split at h
      · exact unwind_supplies hm h
      · rw [h] at heffect
        exact heffect.supplies hm

theorem Reaches.supplies {m m' : Machine} (h : Reaches p config m m') (hm : Supplies p m.activations) :
    Supplies p m'.activations := by
  induction h with
  | refl => exact hm
  | tail _ hstep ih => exact step_supplies ih hstep

theorem enter_supplies {m m' : Machine} {method : Token} {args : List Value}
    (h : m.enter p config method args .host = .ok m') : Supplies p m'.activations := by
  obtain ⟨callee, hcallee, -, rfl⟩ := enter_cases h
  exact supplies_cons.2 ⟨hcallee.supplied, fun huse => absurd rfl huse⟩

/-! ### Runs of the entry point -/

/-- The entry point is given as many arguments as it takes. -/
theorem entryPoint_fits {image : Image} (hload : Program.load image = .ok p) (m : Machine) (args : List String) :
    ∃ info, p.index.methodInfo p.entryPoint = .ok info ∧
      (m.entryArguments p args).2.length = info.signature.argCount := by
  unfold Program.load at hload
  obtain ⟨index, -, hload⟩ := bind_eq_ok_iff.1 hload
  obtain ⟨entryPoint, -, hload⟩ := bind_eq_ok_iff.1 hload
  obtain ⟨info, hinfo, hload⟩ := bind_eq_ok_iff.1 hload
  split at hload
  · cases hload
  · next hstatic =>
    split at hload
    · cases hload
    · next hcount =>
      cases hload
      refine ⟨info, hinfo, ?_⟩
      have hargs : info.signature.argCount = info.signature.paramCount := by
        rw [Signature.argCount, if_neg hstatic]
        exact Nat.mod_eq_of_lt (Nat.lt_of_le_of_lt (Nat.le_of_not_lt hcount) (by decide))
      rw [hargs, entryArguments]
      split
      · next hnone => exact hnone.symm
      · next hsome =>
        change 1 = info.signature.paramCount
        change info.signature.paramCount ≠ 0 at hsome
        omega

/-- Starts a run of the entry point. -/
def enterEntry (p : Program) (config : Config) (m : Machine) (args : List String) : Except Error Machine :=
  (m.entryArguments p args).1.enter p config p.entryPoint (m.entryArguments p args).2 .host

/-- The call of the entry point is not refused for its number of arguments. -/
theorem enterEntry_fits {image : Image} (hload : Program.load image = .ok p) (m : Machine) (args : List String)
    {name : String} {expected actual : Nat} :
    m.enterEntry p config args ≠ .error (.arityMismatch name expected actual) := by
  intro h
  obtain ⟨info, hinfo, hargs⟩ := entryPoint_fits hload m args
  rw [enterEntry, enter_eq] at h
  cases hcallee : p.calleeFrame config (m.entryArguments p args).1.callDepth p.entryPoint
      (m.entryArguments p args).2 with
  | ok callee =>
      rw [hcallee] at h
      cases h
  | error e =>
      rw [hcallee] at h
      cases h
      rcases p.calleeFrame_fails config hcallee with hinner | ⟨info', hinfo', hne, -⟩ | ⟨heq, -⟩
      · cases hinner
      · obtain rfl : info = info' := Except.ok.inj (hinfo.symm.trans hinfo')
        exact hne hargs
      · cases heq

/-- A run of the entry point belongs to the session. -/
theorem Serves.reaches {m₀ m m₁ m₂ : Machine} {args : List String} (hserves : Serves p m₀ m)
    (henter : m.enterEntry p config args = .ok m₁) (hreach : Reaches p config m₁ m₂) : Serves p m₀ m₂ := by
  induction hreach with
  | refl =>
      refine hserves.tail (.host ?_)
      obtain ⟨callee, -, -, rfl⟩ := enter_cases henter
      dsimp only [entryArguments]
      split <;> rfl
  | @tail m₂ m₃ _ hstep ih =>
      have hevent : Event p m₂ (m₂.step p config).machine := .step config m₂
      rw [hstep] at hevent
      exact ih.tail hevent

/-- What fails for a number of arguments in a run of the entry point is an instruction that may. -/
theorem Serves.misfits {m₀ m m₁ m₂ : Machine} {args : List String} (hcounts : p.CountsFit) (hserves : Serves p m₀ m)
    (hloaded : m₀.dispatch = {}) (henter : m.enterEntry p config args = .ok m₁) (hreach : Reaches p config m₁ m₂)
    {op : Operation} {name : String} {expected actual : Nat}
    (hfails : m₂.FailsAt p config op (.arityMismatch name expected actual)) : op.Misfits p := by
  obtain ⟨a, below, i, m', -, -, -, hperform⟩ := hfails
  -- The memo started empty, so what it has for a call site is the method that a search gives.
  have hd := ((hserves.reaches henter hreach).learns (hloaded ▸ Dispatch.coherent_empty p)).coherent
  have hmismatches : (m₂.perform p config a below op).Mismatches (op.Misfits p) :=
    perform_mismatches hcounts hd op
  rw [hperform] at hmismatches
  exact hmismatches

theorem countsFit_of_load {image : Image} (hload : Program.load image = .ok p)
    (hcounts : ∀ row ∈ image.methods, row.signature.paramCount + 1 < countLimit) : p.CountsFit := by
  obtain ⟨-, hbuild⟩ := Program.load_eq_ok hload
  intro method info hinfo
  obtain ⟨row, hrow, hsignature⟩ := Index.exists_row_of_methodInfo hbuild hinfo
  exact hsignature ▸ hcounts row hrow

/-- **Where errors of arity come from.** Take a loaded program whose parameters, with a receiver, can be counted, and a
session on it that starts with an empty memo. The call of the entry point is never refused for its number of arguments.
At every point of its run the frame of each call has as many arguments as its method takes, and an instruction that
fails for a number of arguments makes an object with a static method in the constructor's place, or is a virtual call by
a reference to a static member. A run that ends in such an error came to such an instruction. -/
theorem arity_errors {image : Image} (hload : Program.load image = .ok p)
    (hcounts : ∀ row ∈ image.methods, row.signature.paramCount + 1 < countLimit) {m₀ m : Machine}
    (hloaded : m₀.dispatch = {}) (hserves : Serves p m₀ m) (config : Config) (args : List String) :
    (∀ name expected actual, m.enterEntry p config args ≠ .error (.arityMismatch name expected actual)) ∧
    (∀ m₁ m₂, m.enterEntry p config args = .ok m₁ → Reaches p config m₁ m₂ →
      (∀ a ∈ ownCalls m₂.activations, a.frame.Supplied p) ∧
      ∀ op name expected actual, m₂.FailsAt p config op (.arityMismatch name expected actual) → op.Misfits p) ∧
    ∀ fuel m' name expected actual,
      m.runEntry p config fuel args = some (m', .error (.arityMismatch name expected actual)) →
      ∃ m₁ m₂ op, m.enterEntry p config args = .ok m₁ ∧ Reaches p config m₁ m₂ ∧
        m₂.FailsAt p config op (.arityMismatch name expected actual) ∧ op.Misfits p := by
  have hfit := countsFit_of_load hload hcounts
  refine ⟨fun _ _ _ => enterEntry_fits hload m args, fun m₁ m₂ henter hreach =>
    ⟨hreach.supplies (enter_supplies henter), fun op _ _ _ hfails => hserves.misfits hfit hloaded henter hreach hfails⟩,
    fun fuel m' name expected actual h => ?_⟩
  rcases runEntry_error h with hinvoke | ⟨detail, hdetail⟩
  · unfold invoke at hinvoke
    split at hinvoke
    · next m₁ henter =>
      obtain ⟨m₂, hreach, hstep⟩ := run_failed hinvoke
      obtain ⟨op, e, hfails, rfl | hinner⟩ := step_failed hstep
      · exact ⟨m₁, m₂, op, henter, hreach, hfails, hserves.misfits hfit hloaded henter hreach hfails⟩
      · cases hinner
    · next henter =>
      cases hinvoke
      exact absurd henter (enterEntry_fits hload m args)
  · cases hdetail

end Machine

/-- The entry point takes a list, makes a counter, calls it twice by a virtual call, and makes an object with a static
method. -/
def tallyImage : Image where
  entryPoint := .ofRow .methodDef 4
  types := [{ name := "Tally" }]
  methods :=
    [{ owner := .ofRow .typeDef 1, name := ".ctor", signature := { isInstance := true, returnsVoid := true },
       code := [0x2A] },
     { owner := .ofRow .typeDef 1, name := "Count", signature := { isInstance := true, paramCount := 1 },
       code := [0x17, 0x2A] },
     { owner := .ofRow .typeDef 1, name := "Make", code := [0x14, 0x2A] },
     { owner := .ofRow .typeDef 1, name := "Main", signature := { paramCount := 1 },
       code := [0x73, 0x01, 0x00, 0x00, 0x06, 0x0A, 0x06, 0x02, 0x6F, 0x02, 0x00, 0x00, 0x06, 0x26,
                0x06, 0x02, 0x6F, 0x02, 0x00, 0x00, 0x06, 0x26, 0x73, 0x03, 0x00, 0x00, 0x06, 0x2A],
       locals := 1 }]

def tallyProgram : Program where
  image := tallyImage
  index := (Index.build tallyImage).toOption.getD {}
  entryPoint := .ofRow .methodDef 4
  entrySignature := { paramCount := 1 }

/-- The calls through the memo and past it are in order. The object made with the static method is what fails. -/
theorem Machine.arity_errors_tally : Program.load tallyImage = .ok tallyProgram ∧
    (Machine.runEntry tallyProgram {} 20 {} ["a"]).map (fun r => (r.1.dispatch.hits, r.2)) =
      some (1, .error (.arityMismatch "Make" 0 1)) ∧
    ∃ m₁ m₂ op, enterEntry tallyProgram {} {} ["a"] = .ok m₁ ∧ Reaches tallyProgram {} m₁ m₂ ∧
      (∀ a ∈ ownCalls m₂.activations, a.frame.Supplied tallyProgram) ∧
      m₂.FailsAt tallyProgram {} op (.arityMismatch "Make" 0 1) ∧ op.Misfits tallyProgram := by
  have hload : Program.load tallyImage = .ok tallyProgram := by cbv
  have hresult : (Machine.runEntry tallyProgram {} 20 {} ["a"]).map (fun r => (r.1.dispatch.hits, r.2)) =
      some (1, .error (.arityMismatch "Make" 0 1)) := by decide_cbv
  obtain ⟨⟨m', result⟩, hrun, heq⟩ := Option.map_eq_some_iff.1 hresult
  obtain ⟨-, rfl⟩ := Prod.mk.inj heq
  obtain ⟨-, runs, ends⟩ := arity_errors hload (by decide_cbv) rfl (.refl (a := {})) {} ["a"]
  obtain ⟨m₁, m₂, op, henter, hreach, hfails, hmisfits⟩ := ends 20 m' "Make" 0 1 hrun
  exact ⟨hload, hresult, m₁, m₂, op, henter, hreach, (runs m₁ m₂ henter hreach).1, hfails, hmisfits⟩

end ManagedCode
