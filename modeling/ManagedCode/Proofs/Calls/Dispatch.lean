import ManagedCode.Proofs.Calls.Isolation

/-! The dispatch memo is not seen. Beside the machine stands one that resolves every virtual call in the types of the
program and does not look at the memo. An entry of the memo holds what such a resolution gives, a session keeps all the
entries it has, and so a run with the memo ends as the run without it does. -/

namespace ManagedCode

variable {p : Program} {config : Config}

/-! ### Sites -/

/-- A virtual call at the site asks for a method of this name and number of parameters: those of the method of the
program, or of the member, that the site is a token of. -/
inductive Program.AsksFor (p : Program) (site : Token) : String → Nat → Prop where
  | method {info : MethodInfo} (htable : site.table = .methodDef) (hinfo : p.index.methodInfo site = .ok info) :
      AsksFor p site info.name info.signature.paramCount
  | member {member : MemberRef} {signature : Signature} (htable : site.table = .memberRef)
      (hmember : p.image.memberRef site = .ok member) (hsignature : member.signature = some signature) :
      AsksFor p site member.name signature.paramCount

theorem Program.AsksFor.unique {site : Token} {name name' : String} {paramCount paramCount' : Nat}
    (h : p.AsksFor site name paramCount) (h' : p.AsksFor site name' paramCount') :
    name = name' ∧ paramCount = paramCount' := by
  cases h with
  | method htable hinfo =>
      cases h' with
      | method _ hinfo' =>
          rw [hinfo] at hinfo'
          cases hinfo'
          exact ⟨rfl, rfl⟩
      | member htable' _ _ =>
          rw [htable] at htable'
          cases htable'
  | member htable hmember hsignature =>
      cases h' with
      | method htable' _ =>
          rw [htable] at htable'
          cases htable'
      | member _ hmember' hsignature' =>
          rw [hmember] at hmember'
          cases hmember'
          rw [hsignature] at hsignature'
          cases hsignature'
          exact ⟨rfl, rfl⟩

theorem Program.asksFor_of_virtualTarget {site : Token} {target : VirtualTarget}
    (h : p.virtualTarget site = .ok (some target)) : p.AsksFor site target.name target.signature.paramCount := by
  rcases p.virtualTarget_cases h with
    ⟨info, htable, hinfo, -, rfl⟩ | ⟨member, signature, htable, hmember, hsignature, rfl⟩
  · exact .method htable hinfo
  · exact .member htable hmember (p.memberSignature_eq_ok_iff.1 hsignature)

/-! ### Entries -/

namespace Dispatch

/-- Every entry holds the method that its type has for what its site asks for. -/
def Coherent (p : Program) (d : Dispatch) : Prop :=
  ∀ site type method, ((site, type), method) ∈ d.entries →
    ∃ name paramCount, p.AsksFor site name paramCount ∧ p.index.resolveVirtual? type name paramCount = some method

/-- The entries of the first memo are entries of the second, and it finds them. -/
structure Grows (d d' : Dispatch) : Prop where
  entries : d.entries <:+ d'.entries
  found : ∀ site type method, d.find? site type = some method → d'.find? site type = some method

/-- What becomes of a memo: it grows by entries that are right. -/
structure Learns (p : Program) (d d' : Dispatch) : Prop where
  coherent : d'.Coherent p
  grows : d.Grows d'

theorem Grows.refl (d : Dispatch) : d.Grows d :=
  ⟨List.suffix_refl _, fun _ _ _ h => h⟩

theorem Grows.trans {d d' d'' : Dispatch} (h : d.Grows d') (h' : d'.Grows d'') : d.Grows d'' :=
  ⟨h.entries.trans h'.entries, fun _ _ _ hfound => h'.found _ _ _ (h.found _ _ _ hfound)⟩

theorem Coherent.learns {d : Dispatch} (hd : d.Coherent p) : d.Learns p d :=
  ⟨hd, Grows.refl d⟩

/-- The counts of look-ups do not matter. -/
theorem Learns.of_entries {d d₁ d' : Dispatch} (h : d₁.Learns p d') (hentries : d₁.entries = d.entries) :
    d.Learns p d' := by
  refine ⟨h.coherent, hentries ▸ h.grows.entries, fun site type method hfound => h.grows.found site type method ?_⟩
  rw [find?, hentries]
  exact hfound

theorem Learns.trans {d d' d'' : Dispatch} (h : d.Learns p d') (h' : d'.Learns p d'') : d.Learns p d'' :=
  ⟨h'.coherent, h.grows.trans h'.grows⟩

theorem coherent_empty (p : Program) : ({} : Dispatch).Coherent p := by
  intro site type method h
  cases h

variable {d : Dispatch} {site type : Token}

/-- A method recorded for a pair without an entry is an entry in front of the others. -/
theorem entries_insert (h : d.find? site type = none) (method : Token) :
    (d.insert site type method).entries = ((site, type), method) :: d.entries := by
  have hothers : d.entries.filter (fun entry => entry.1 != (site, type)) = d.entries := by
    refine List.filter_eq_self.2 fun entry hentry => ?_
    have hne := List.lookup_eq_none_iff.1 h entry hentry
    rwa [bne_comm]
  exact congrArg _ hothers

theorem Grows.insert (h : d.find? site type = none) (method : Token) : d.Grows (d.insert site type method) := by
  refine ⟨?_, fun site' type' method' hfound => ?_⟩
  · rw [entries_insert h]
    exact List.suffix_cons _ _
  · unfold find? at hfound ⊢
    rw [entries_insert h, List.lookup_cons]
    cases hkey : (site', type') == (site, type) with
    | false => exact hfound
    | true =>
        obtain ⟨rfl, rfl⟩ := Prod.mk.inj (beq_iff_eq.1 hkey)
        rw [find?, hfound] at h
        cases h

theorem Coherent.insert {name : String} {paramCount : Nat} {method : Token} (hd : d.Coherent p)
    (h : d.find? site type = none) (hasks : p.AsksFor site name paramCount)
    (hmethod : p.index.resolveVirtual? type name paramCount = some method) :
    d.Learns p (d.insert site type method) := by
  refine ⟨fun site' type' method' hmem => ?_, Grows.insert h method⟩
  rw [entries_insert h] at hmem
  rcases List.mem_cons.1 hmem with heq | hmem
  · cases heq
    exact ⟨name, paramCount, hasks, hmethod⟩
  · exact hd site' type' method' hmem

end Dispatch

section Resolution

open Dispatch

variable {d : Dispatch} {site : Token} {name : String} {paramCount : Nat}

/-- **A look-up in the memo** gives what the types of the program give, and the memo learns. -/
theorem Program.resolveIn_spec (hd : d.Coherent p) (hasks : p.AsksFor site name paramCount) (type : Token) :
    (p.resolveIn d site type name paramCount).2 = p.index.resolveVirtual? type name paramCount ∧
      d.Learns p (p.resolveIn d site type name paramCount).1 := by
  unfold resolveIn lookup
  cases hfind : d.find? site type with
  | some method =>
      obtain ⟨name', paramCount', hasks', hmethod⟩ := hd site type method (mem_of_lookup_eq_some hfind)
      obtain ⟨rfl, rfl⟩ := hasks.unique hasks'
      have hcounted : Coherent p { d with hits := d.hits + 1 } := hd
      exact ⟨hmethod.symm, hcounted.learns.of_entries rfl⟩
  | none =>
      have hcounted : Coherent p { d with misses := d.misses + 1 } := hd
      dsimp only
      cases hmethod : p.index.resolveVirtual? type name paramCount with
      | none => exact ⟨rfl, hcounted.learns.of_entries rfl⟩
      | some method => exact ⟨rfl, (hcounted.insert hfind hasks hmethod).of_entries rfl⟩

theorem Program.resolveIn_failed {type : Token} (h : (p.resolveIn d site type name paramCount).2 = none) :
    (p.resolveIn d site type name paramCount).1.entries = d.entries := by
  unfold resolveIn lookup at h ⊢
  cases hfind : d.find? site type with
  | some method => rfl
  | none =>
      simp only [hfind] at h ⊢
      cases hmethod : p.index.resolveVirtual? type name paramCount with
      | none => rfl
      | some method =>
          simp only [hmethod] at h
          cases h

/-- A virtual call that finds no method adds no entry. -/
theorem Machine.resolveVirtual_failed {m m' : Machine} {receiver : Handle} {e : Error}
    (h : m.resolveVirtual p site receiver name paramCount = (m', .error e)) :
    m'.dispatch.entries = m.dispatch.entries := by
  cases hget : m.heap.get? receiver with
  | none =>
      unfold resolveVirtual Heap.object at h
      rw [hget] at h
      cases h
      rfl
  | some o =>
      rw [resolveVirtual_eq hget] at h
      cases hmethod : (p.resolveIn m.dispatch site o.type name paramCount).2 with
      | some method =>
          rw [hmethod] at h
          cases h
      | none =>
          rw [hmethod] at h
          cases h
          exact Program.resolveIn_failed hmethod

end Resolution

/-! ### The machine without the memo -/

namespace Machine

/-- The method that a virtual call runs on an object, by the types of the program. -/
def resolveDirect (p : Program) (m : Machine) (receiver : Handle) (name : String) (paramCount : Nat) :
    Except Error Token :=
  match m.heap.object receiver with
  | .error e => .error e
  | .ok o =>
      match p.index.resolveVirtual? o.type name paramCount with
      | some target => .ok target
      | none => .error (.virtualNotFound o.typeName name paramCount)

def callVirtualDirect (p : Program) (config : Config) (m : Machine) (a : Activation) (below : List Activation)
    (token : Token) : Outcome :=
  match p.virtualTarget token with
  | .error e => .failed m e
  | .ok none => call p config m a below token
  | .ok (some target) =>
      match a.frame.popArgs target.signature.argCount with
      | .error e => .failed m e
      | .ok (args, frame) =>
          match virtualCall p target args with
          | .error e => .failed m e
          | .ok (.toIntrinsic i) => intrinsicWith m a below frame i args target.signature.resultUse
          | .ok (.toMethod receiver) =>
              match resolveDirect p m receiver target.name target.signature.paramCount with
              | .error e => .failed m e
              | .ok method => callWith p config m a below frame method args target.signature.resultUse

/-- Performs an operation; only virtual calls differ. -/
def performDirect (p : Program) (config : Config) (m : Machine) (a : Activation) (below : List Activation)
    (op : Operation) : Outcome :=
  match op with
  | .callvirt token => callVirtualDirect p config m a below token
  | op => perform p config m a below op

def stepDirect (p : Program) (config : Config) (m : Machine) : Outcome :=
  match m.activations with
  | [] => .returned m none
  | a :: below =>
      match a.frame.code[a.frame.ip]? with
      | none => m.deliver a.use below none
      | some i =>
          match performDirect p config m a below i.op with
          | .failed m e => unwind p m e (a :: below)
          | outcome => outcome

def runDirect (p : Program) (config : Config) : (fuel : Nat) → Machine → Option (Machine × Except Error (Option Value))
  | 0, _ => none
  | fuel + 1, m =>
      match m.stepDirect p config with
      | .running m => runDirect p config fuel m
      | .returned m value => some (m, .ok value)
      | .failed m e => some (m, .error e)

def invokeDirect (p : Program) (config : Config) (fuel : Nat) (m : Machine) (method : Token) (args : List Value) :
    Option (Machine × Except Error (Option Value)) :=
  match enter p config m method args .host with
  | .ok m => runDirect p config fuel m
  | .error e => some (m, .error e)

def runEntryDirect (p : Program) (config : Config) (fuel : Nat) (m : Machine) (args : List String) :
    Option (Machine × Except Error Int32) :=
  let (m, values) := entryArguments p m args
  (invokeDirect p config fuel m p.entryPoint values).map fun (m, result) => m.finishEntry result

/-! ### Another memo -/

/-- The machine with another memo. -/
def withMemo (m : Machine) (d : Dispatch) : Machine :=
  { m with dispatch := d }

end Machine

def Outcome.withMemo (d : Dispatch) : Outcome → Outcome
  | .running m => .running (m.withMemo d)
  | .returned m value => .returned (m.withMemo d) value
  | .failed m e => .failed (m.withMemo d) e

namespace Machine

section WithMemo

variable (m : Machine) (a : Activation) (below : List Activation) (d : Dispatch)

theorem settle_withMemo (r : Except Error Frame) :
    (m.withMemo d).settle a below r = (m.settle a below r).withMemo d := by
  cases r <;> rfl

theorem callWith_withMemo (frame : Frame) (method : Token) (args : List Value) (use : ResultUse) :
    (m.withMemo d).callWith p config a below frame method args use =
      (m.callWith p config a below frame method args use).withMemo d := by
  simp only [callWith, enter_eq, callDepth]
  cases p.calleeFrame config _ method args <;> rfl

theorem intrinsicWith_withMemo (frame : Frame) (i : Intrinsic) (args : List Value) (use : ResultUse) :
    (m.withMemo d).intrinsicWith a below frame i args use = (m.intrinsicWith a below frame i args use).withMemo d := by
  have hintrinsic : (m.withMemo d).intrinsic i args = ((m.intrinsic i args).1.withMemo d, (m.intrinsic i args).2) := by
    cases i <;> rfl
  unfold intrinsicWith
  rw [hintrinsic]
  obtain ⟨m₁, result⟩ := m.intrinsic i args
  cases result <;> rfl

theorem call_withMemo (token : Token) :
    (m.withMemo d).call p config a below token = (m.call p config a below token).withMemo d := by
  unfold call
  cases token.table with
  | methodDef =>
      dsimp only
      cases p.index.methodInfo token with
      | error e => rfl
      | ok info =>
          dsimp only
          cases a.frame.popArgs info.signature.argCount with
          | error e => rfl
          | ok r => exact callWith_withMemo m a below d r.2 token r.1 _
  | memberRef =>
      dsimp only
      cases call.member p a token with
      | error e => rfl
      | ok r => exact intrinsicWith_withMemo m a below d _ _ _ _
  | _ => rfl

theorem callVirtualDirect_withMemo (token : Token) : (m.withMemo d).callVirtualDirect p config a below token =
    (m.callVirtualDirect p config a below token).withMemo d := by
  unfold callVirtualDirect
  cases p.virtualTarget token with
  | error e => rfl
  | ok target =>
      cases target with
      | none => exact call_withMemo m a below d token
      | some target =>
          dsimp only
          cases a.frame.popArgs target.signature.argCount with
          | error e => rfl
          | ok r =>
              dsimp only
              cases virtualCall p target r.1 with
              | error e => rfl
              | ok called =>
                  cases called with
                  | toIntrinsic i => exact intrinsicWith_withMemo m a below d r.2 i r.1 _
                  | toMethod receiver =>
                      change (match m.resolveDirect p receiver _ _ with | .error e => _ | .ok method => _) = _
                      dsimp only
                      cases m.resolveDirect p receiver target.name target.signature.paramCount with
                      | error e => rfl
                      | ok method => exact callWith_withMemo m a below d r.2 method r.1 _

theorem newObject_withMemo (token : Token) :
    (m.withMemo d).newObject p config a below token = (m.newObject p config a below token).withMemo d := by
  unfold newObject
  cases newObject.resolved p token with
  | error e => rfl
  | ok r =>
      dsimp only
      cases a.frame.popArgs r.2.2.1.paramCount with
      | error e => rfl
      | ok s => exact callWith_withMemo { m with heap := _ } a below d _ _ _ _

theorem deliver_withMemo (use : ResultUse) (value : Option Value) :
    (m.withMemo d).deliver use below value = (m.deliver use below value).withMemo d := by
  cases use <;> cases below <;> rfl

theorem returnFrom_withMemo : (m.withMemo d).returnFrom config a below = (m.returnFrom config a below).withMemo d := by
  rw [returnFrom_eq, returnFrom_eq]
  exact deliver_withMemo { m with heap := _, activations := _ } below d a.use _

/-- An operation does the same with any memo. -/
theorem performDirect_withMemo (op : Operation) :
    (m.withMemo d).performDirect p config a below op = (m.performDirect p config a below op).withMemo d := by
  have onFrame : ∀ r, (m.withMemo d).settle a below r = (m.settle a below r).withMemo d := settle_withMemo m a below d
  cases op with
  | nop | endfinally | ldnull | ldc => rfl
  | stfld field =>
      have hstore : storeField p (m.withMemo d) a.frame field = storeField p m a.frame field := rfl
      dsimp only [performDirect, perform]
      rw [hstore]
      cases storeField p m a.frame field with
      | error e => rfl
      | ok r => rfl
  | throw =>
      dsimp only [performDirect, perform]
      cases a.frame.pop with
      | error e => rfl
      | ok r =>
          obtain ⟨value, f⟩ := r
          cases value <;> rfl
  | call token => exact call_withMemo m a below d token
  | callvirt token => exact callVirtualDirect_withMemo m a below d token
  | newobj token => exact newObject_withMemo m a below d token
  | ret => exact returnFrom_withMemo m a below d
  | _ => exact onFrame _

theorem unwind_withMemo (e : Error) (acts : List Activation) :
    (m.withMemo d).unwind p e acts = (m.unwind p e acts).withMemo d := by
  have hidentity : ∀ e, (m.withMemo d).identityOf e = m.identityOf e := by
    intro e
    cases e <;> rfl
  induction acts generalizing e with
  | nil =>
      rw [unwind, unwind]
      rfl
  | cons a below ih =>
      rw [unwind_cons, unwind_cons, hidentity]
      cases a.frame.answer p e with
      | handles fault index => rfl
      | passes e' =>
          dsimp only
          split
          · rfl
          · exact ih e'

theorem stepDirect_withMemo : (m.withMemo d).stepDirect p config = (m.stepDirect p config).withMemo d := by
  unfold stepDirect
  change (match m.activations with | [] => _ | a :: below => _) = _
  cases m.activations with
  | nil => rfl
  | cons a below =>
      dsimp only
      cases a.frame.code[a.frame.ip]? with
      | none => exact deliver_withMemo m below d a.use none
      | some i =>
          dsimp only
          rw [performDirect_withMemo]
          cases m.performDirect p config a below i.op with
          | running m₁ => rfl
          | returned m₁ value => rfl
          | failed m₁ e => exact unwind_withMemo m₁ d e (a :: below)

/-- The end of a run, with another memo. -/
def endWithMemo {α : Type} (d : Dispatch) (r : Machine × α) : Machine × α :=
  (r.1.withMemo d, r.2)

theorem enter_withMemo (method : Token) (args : List Value) (use : ResultUse) :
    (m.withMemo d).enter p config method args use = (m.enter p config method args use).map (withMemo · d) := by
  rw [enter_eq, enter_eq]
  change (p.calleeFrame config m.callDepth method args).map _ = _
  cases p.calleeFrame config m.callDepth method args <;> rfl

theorem entryArguments_withMemo (args : List String) :
    (m.withMemo d).entryArguments p args = endWithMemo d (m.entryArguments p args) := by
  unfold entryArguments
  split <;> rfl

theorem runDirect_withMemo (fuel : Nat) :
    (m.withMemo d).runDirect p config fuel = (m.runDirect p config fuel).map (endWithMemo d) := by
  induction fuel generalizing m with
  | zero => rfl
  | succ fuel ih =>
      rw [runDirect, runDirect, stepDirect_withMemo]
      cases m.stepDirect p config with
      | running m₁ => exact ih m₁
      | returned m₁ value => rfl
      | failed m₁ e => rfl

theorem invokeDirect_withMemo (fuel : Nat) (method : Token) (args : List Value) :
    (m.withMemo d).invokeDirect p config fuel method args =
      (m.invokeDirect p config fuel method args).map (endWithMemo d) := by
  unfold invokeDirect
  rw [enter_withMemo]
  cases m.enter p config method args .host with
  | error e => rfl
  | ok m₁ => exact runDirect_withMemo m₁ d fuel

theorem finishEntry_withMemo (result : Except Error (Option Value)) :
    (m.withMemo d).finishEntry result = endWithMemo d (m.finishEntry result) := by
  cases result <;> rfl

theorem runEntryDirect_withMemo (fuel : Nat) (args : List String) :
    (m.withMemo d).runEntryDirect p config fuel args = (m.runEntryDirect p config fuel args).map (endWithMemo d) := by
  unfold runEntryDirect
  rw [entryArguments_withMemo]
  simp only [endWithMemo, invokeDirect_withMemo, Option.map_map]
  exact congrArg (Option.map · _) (funext fun r => finishEntry_withMemo r.1 d r.2)

end WithMemo

/-! ### Runs with the memo and without it -/

section Runs

variable {m : Machine} (hd : m.dispatch.Coherent p)

include hd

theorem resolveVirtual_direct {site : Token} {target : VirtualTarget}
    (htarget : p.virtualTarget site = .ok (some target)) (receiver : Handle) : ∃ d, m.dispatch.Learns p d ∧
      m.resolveVirtual p site receiver target.name target.signature.paramCount =
        (m.withMemo d, m.resolveDirect p receiver target.name target.signature.paramCount) := by
  cases hget : m.heap.get? receiver with
  | none =>
      refine ⟨m.dispatch, hd.learns, ?_⟩
      simp only [resolveVirtual, resolveDirect, Heap.object, hget]
      rfl
  | some o =>
      obtain ⟨hsame, hlearns⟩ := p.resolveIn_spec hd (p.asksFor_of_virtualTarget htarget) o.type
      refine ⟨_, hlearns, ?_⟩
      rw [resolveVirtual_eq hget, hsame]
      simp only [resolveDirect, Heap.object, hget]
      rfl

theorem callVirtual_direct (config : Config) (a : Activation) (below : List Activation) (token : Token) :
    ∃ d, m.dispatch.Learns p d ∧
      m.callVirtual p config a below token = (m.callVirtualDirect p config a below token).withMemo d := by
  unfold callVirtual callVirtualDirect
  cases htarget : p.virtualTarget token with
  | error e => exact ⟨m.dispatch, hd.learns, rfl⟩
  | ok target =>
      cases target with
      | none => exact ⟨m.dispatch, hd.learns, call_withMemo m a below m.dispatch token⟩
      | some target =>
          dsimp only
          cases a.frame.popArgs target.signature.argCount with
          | error e => exact ⟨m.dispatch, hd.learns, rfl⟩
          | ok r =>
              dsimp only
              cases virtualCall p target r.1 with
              | error e => exact ⟨m.dispatch, hd.learns, rfl⟩
              | ok called =>
                  cases called with
                  | toIntrinsic i =>
                      exact ⟨m.dispatch, hd.learns, intrinsicWith_withMemo m a below m.dispatch r.2 i r.1 _⟩
                  | toMethod receiver =>
                      obtain ⟨d, hlearns, hresolve⟩ := resolveVirtual_direct hd htarget receiver
                      refine ⟨d, hlearns, ?_⟩
                      dsimp only
                      rw [hresolve]
                      cases m.resolveDirect p receiver target.name target.signature.paramCount with
                      | error e => rfl
                      | ok method => exact callWith_withMemo m a below d r.2 method r.1 _

theorem perform_direct (config : Config) (a : Activation) (below : List Activation) (op : Operation) :
    ∃ d, m.dispatch.Learns p d ∧
      m.perform p config a below op = (m.performDirect p config a below op).withMemo d := by
  by_cases hvirtual : ∃ token, op = .callvirt token
  · obtain ⟨token, rfl⟩ := hvirtual
    exact callVirtual_direct hd config a below token
  · refine ⟨m.dispatch, hd.learns, ?_⟩
    have hsame : m.performDirect p config a below op = (m.performDirect p config a below op).withMemo m.dispatch :=
      performDirect_withMemo m a below m.dispatch op
    rw [← hsame]
    cases op with
    | callvirt token => exact absurd ⟨token, rfl⟩ hvirtual
    | _ => rfl

/-- **One step with the memo** is the step without it, and the memo learns. -/
theorem step_direct (config : Config) : ∃ d, m.dispatch.Learns p d ∧
    m.step p config = (m.stepDirect p config).withMemo d := by
  unfold step stepDirect
  cases m.activations with
  | nil => exact ⟨m.dispatch, hd.learns, rfl⟩
  | cons a below =>
      dsimp only
      cases a.frame.code[a.frame.ip]? with
      | none => exact ⟨m.dispatch, hd.learns, deliver_withMemo m below m.dispatch a.use none⟩
      | some i =>
          obtain ⟨d, hlearns, hperform⟩ := perform_direct hd config a below i.op
          refine ⟨d, hlearns, ?_⟩
          dsimp only
          rw [hperform]
          cases m.performDirect p config a below i.op with
          | running m₁ => rfl
          | returned m₁ value => rfl
          | failed m₁ e => exact unwind_withMemo m₁ d e (a :: below)

/-- **A run with the memo** is the run without it, and the memo learns. -/
theorem run_direct (config : Config) (fuel : Nat) : ∃ d, m.dispatch.Learns p d ∧
    m.run p config fuel = (m.runDirect p config fuel).map (endWithMemo d) := by
  induction fuel generalizing m with
  | zero => exact ⟨m.dispatch, hd.learns, rfl⟩
  | succ fuel ih =>
      obtain ⟨d, hlearns, hstep⟩ := step_direct hd config
      rw [run, runDirect, hstep]
      cases m.stepDirect p config with
      | returned m₁ value => exact ⟨d, hlearns, rfl⟩
      | failed m₁ e => exact ⟨d, hlearns, rfl⟩
      | running m₁ =>
          obtain ⟨d', hlearns', hrun⟩ := ih (m := m₁.withMemo d) hlearns.coherent
          refine ⟨d', hlearns.trans hlearns', ?_⟩
          change (m₁.withMemo d).run p config fuel = _
          rw [hrun, runDirect_withMemo, Option.map_map]
          rfl

theorem invoke_direct (config : Config) (fuel : Nat) (method : Token) (args : List Value) :
    ∃ d, m.dispatch.Learns p d ∧
      m.invoke p config fuel method args = (m.invokeDirect p config fuel method args).map (endWithMemo d) := by
  unfold invoke invokeDirect
  cases henter : m.enter p config method args .host with
  | error e => exact ⟨m.dispatch, hd.learns, rfl⟩
  | ok m₁ =>
      obtain ⟨callee, -, -, rfl⟩ := enter_cases henter
      exact run_direct (m := { m with activations := ⟨callee, .host⟩ :: m.activations }) hd config fuel

theorem runEntry_direct (config : Config) (fuel : Nat) (args : List String) : ∃ d, m.dispatch.Learns p d ∧
    m.runEntry p config fuel args = (m.runEntryDirect p config fuel args).map (endWithMemo d) := by
  have hmemo : (m.entryArguments p args).1.dispatch = m.dispatch := by
    unfold entryArguments
    split <;> rfl
  obtain ⟨d, hlearns, hinvoke⟩ := invoke_direct (m := (m.entryArguments p args).1) (hmemo ▸ hd) config fuel p.entryPoint
    (m.entryArguments p args).2
  refine ⟨d, hmemo ▸ hlearns, ?_⟩
  simp only [runEntry, runEntryDirect, hinvoke, Option.map_map]
  exact congrArg (Option.map · _) (funext fun r => finishEntry_withMemo r.1 d r.2)

end Runs

/-! ### Sessions -/

/-- What happens in a session on a program, whatever the configuration of each run is. The host may change anything but
the memo: what is on the heap, the console, and the calls in flight. -/
inductive Event (p : Program) : Machine → Machine → Prop where
  | host {m m' : Machine} (h : m'.dispatch = m.dispatch) : Event p m m'
  | step (config : Config) (m : Machine) : Event p m (m.step p config).machine
  | invoke {config : Config} {fuel : Nat} {m m' : Machine} {method : Token} {args : List Value}
      {result : Except Error (Option Value)} (h : m.invoke p config fuel method args = some (m', result)) : Event p m m'
  | runEntry {config : Config} {fuel : Nat} {m m' : Machine} {args : List String} {result : Except Error Int32}
      (h : m.runEntry p config fuel args = some (m', result)) : Event p m m'

/-- A session that is at the first machine comes to the second. -/
def Serves (p : Program) : Machine → Machine → Prop :=
  Relation.ReflTransGen (Event p)

theorem dispatch_of_map_endWithMemo {α : Type} {d : Dispatch} {r : Option (Machine × α)} {m : Machine} {result : α}
    (h : r.map (endWithMemo d) = some (m, result)) : m.dispatch = d := by
  obtain ⟨r, -, hr⟩ := Option.map_eq_some_iff.1 h
  cases hr
  rfl

theorem Event.learns {m m' : Machine} (h : Event p m m') (hd : m.dispatch.Coherent p) :
    m.dispatch.Learns p m'.dispatch := by
  cases h with
  | host h => exact h ▸ hd.learns
  | step config =>
      obtain ⟨d, hlearns, hstep⟩ := step_direct hd config
      rw [hstep]
      cases m.stepDirect p config <;> exact hlearns
  | invoke h =>
      obtain ⟨d, hlearns, hinvoke⟩ := invoke_direct hd _ _ _ _
      rw [hinvoke] at h
      exact dispatch_of_map_endWithMemo h ▸ hlearns
  | runEntry h =>
      obtain ⟨d, hlearns, hrun⟩ := runEntry_direct hd _ _ _
      rw [hrun] at h
      exact dispatch_of_map_endWithMemo h ▸ hlearns

/-- What a session keeps. -/
theorem Serves.learns {m m' : Machine} (h : Serves p m m') (hd : m.dispatch.Coherent p) :
    m.dispatch.Learns p m'.dispatch := by
  induction h with
  | refl => exact hd.learns
  | tail _ hevent ih => exact ih.trans (hevent.learns ih.coherent)

/-- Two runs that end alike but for their memos. -/
theorem eq_map_endWithMemo {α : Type} {d d' : Dispatch} {ends full other : Option (Machine × α)}
    (hfull : full = ends.map (endWithMemo d')) (hother : other = ends.map (endWithMemo d)) :
    other = full.map (endWithMemo d) := by
  rw [hother, hfull, Option.map_map]
  rfl

/-- **The memo is right, and it is not seen.** In a session that starts with an empty memo every entry is what the types
of the program give for it. The rest of the session keeps the entries, and a virtual call that finds no method adds
none. Every run ends as the one that does not look at the memo, which may be any there. -/
theorem dispatch_coherence (p : Program) {m₀ m : Machine} (hloaded : m₀.dispatch = {}) (hserves : Serves p m₀ m) :
    m.dispatch.Coherent p ∧
    (∀ m', Serves p m m' → m.dispatch.Grows m'.dispatch) ∧
    (∀ site receiver name paramCount m' e, m.resolveVirtual p site receiver name paramCount = (m', .error e) →
      m'.dispatch.entries = m.dispatch.entries) ∧
    ∀ config fuel d,
      { m with dispatch := d }.runDirect p config fuel =
        (m.run p config fuel).map (fun r => ({ r.1 with dispatch := d }, r.2)) ∧
      (∀ method args, { m with dispatch := d }.invokeDirect p config fuel method args =
        (m.invoke p config fuel method args).map (fun r => ({ r.1 with dispatch := d }, r.2))) ∧
      ∀ args, { m with dispatch := d }.runEntryDirect p config fuel args =
        (m.runEntry p config fuel args).map (fun r => ({ r.1 with dispatch := d }, r.2)) := by
  have hd : m.dispatch.Coherent p := (hserves.learns (hloaded ▸ Dispatch.coherent_empty p)).coherent
  refine ⟨hd, fun m' h => (h.learns hd).grows, fun _ _ _ _ _ _ h => resolveVirtual_failed h, fun config fuel d => ?_⟩
  refine ⟨?_, fun method args => ?_, fun args => ?_⟩
  · obtain ⟨d', -, hrun⟩ := run_direct hd config fuel
    exact eq_map_endWithMemo hrun (runDirect_withMemo m d fuel)
  · obtain ⟨d', -, hinvoke⟩ := invoke_direct hd config fuel method args
    exact eq_map_endWithMemo hinvoke (invokeDirect_withMemo m d fuel method args)
  · obtain ⟨d', -, hrun⟩ := runEntry_direct hd config fuel args
    exact eq_map_endWithMemo hrun (runEntryDirect_withMemo m d fuel args)

end Machine

/-- The entry point makes a shape and asks it twice for its sides. -/
def shapeImage : Image where
  entryPoint := .ofRow .methodDef 3
  types := [{ name := "Shape" }]
  methods :=
    [{ owner := .ofRow .typeDef 1, name := ".ctor", signature := { isInstance := true, returnsVoid := true },
       code := [0x2A] },
     { owner := .ofRow .typeDef 1, name := "Sides", signature := { isInstance := true }, code := [0x1A, 0x2A] },
     { owner := .ofRow .typeDef 1, name := "Main",
       code := [0x73, 0x01, 0x00, 0x00, 0x06, 0x25, 0x6F, 0x02, 0x00, 0x00, 0x06, 0x26,
                0x6F, 0x02, 0x00, 0x00, 0x06, 0x2A] }]

def shapeProgram : Program where
  image := shapeImage
  index := (Index.build shapeImage).toOption.getD {}
  entryPoint := .ofRow .methodDef 3
  entrySignature := {}

/-- The machine after a run of the entry point. -/
def shapeServed : Machine :=
  ((Machine.runEntry shapeProgram {} 20 {} []).map Prod.fst).getD {}

/-- The first call of a run fills the memo and the second uses it. A second run finds the entry as well, and ends as the
run that starts with no entry and looks for none. -/
theorem Machine.dispatch_coherence_shape :
    shapeServed.dispatch = {
      entries := [((.ofRow .methodDef 2, .ofRow .typeDef 1), .ofRow .methodDef 2)]
      siteTypes := [(.ofRow .methodDef 2, 1)]
      hits := 1
      misses := 1 } ∧
    Serves shapeProgram {} shapeServed ∧ shapeServed.dispatch.Coherent shapeProgram ∧
    (shapeServed.runEntry shapeProgram {} 20 []).map (fun r => (r.1.dispatch.hits, r.2)) = some (3, .ok 4) ∧
    { shapeServed with dispatch := {} }.runEntryDirect shapeProgram {} 20 [] =
      (shapeServed.runEntry shapeProgram {} 20 []).map (fun r => ({ r.1 with dispatch := {} }, r.2)) := by
  have hruns : (Machine.runEntry shapeProgram {} 20 {} []).isSome = true := by decide_cbv
  obtain ⟨⟨m, result⟩, hrun⟩ := Option.isSome_iff_exists.1 hruns
  have hserved : m = shapeServed := by
    rw [shapeServed, hrun]
    rfl
  have hserves : Serves shapeProgram {} shapeServed := .single (.runEntry (hserved ▸ hrun))
  obtain ⟨hcoherent, -, -, hsame⟩ := Machine.dispatch_coherence shapeProgram rfl hserves
  exact ⟨by decide_cbv, hserves, hcoherent, by decide_cbv, (hsame {} 20 {}).2.2 []⟩

end ManagedCode
