import ManagedCode.Proofs.Calls.Dispatch
import ManagedCode.Proofs.HeapAccess

/-! A run of the entry point cannot see what a session has left behind. A used machine holds objects of earlier runs and
of the host, young and old, with a remembered set and slots to recycle, and a memo of the program. None of these objects
is paired with one of the new run, so the run goes in lockstep with that of a fresh machine: the pairs are the objects
that the two runs make, and every entry of the memo is what the types of the program give. -/

namespace ManagedCode

/-! ### Consoles -/

/-- After the given bytes both consoles were given the same, and their writers are in one state. -/
structure Console.Appended (before before' : Array UInt8) (c c' : Console) : Prop where
  writer : c.writer = c'.writer
  state : c.state = c'.state
  written : ∃ bytes : List UInt8, c.written = before ++ bytes ∧ c'.written = before' ++ bytes

namespace Console.Appended

variable {before before' : Array UInt8} {c c' : Console}

theorem append (h : Appended before before' c c') (bytes : List UInt8) (writer : Writer) (state : Nat) :
    Appended before before' ⟨c.written.appendList bytes, writer, state⟩
      ⟨c'.written.appendList bytes, writer, state⟩ := by
  obtain ⟨earlier, hwritten, hwritten'⟩ := h.written
  have hgiven : ∀ before : Array UInt8, (before ++ earlier).appendList bytes = before ++ (earlier ++ bytes) := by
    intro before
    apply Array.ext'
    simp
  refine ⟨rfl, rfl, earlier ++ bytes, ?_, ?_⟩
  · rw [hwritten, hgiven]
  · rw [hwritten', hgiven]

theorem write (h : Appended before before' c c') (bytes : List UInt8) :
    (c.write bytes).2 = (c'.write bytes).2 ∧ Appended before before' (c.write bytes).1 (c'.write bytes).1 := by
  obtain ⟨written, writer, state⟩ := c
  obtain ⟨written', writer', state'⟩ := c'
  obtain rfl : writer = writer' := h.writer
  obtain rfl : state = state' := h.state
  unfold Console.write
  dsimp only
  -- The writer is asked the same on both sides, so it answers the same.
  split
  · exact ⟨rfl, h⟩
  · split
    · exact ⟨rfl, h.append bytes writer _⟩
    · exact ⟨rfl, h.append _ writer _⟩

theorem flush (h : Appended before before' c c') :
    c.flush.2 = c'.flush.2 ∧ Appended before before' c.flush.1 c'.flush.1 := by
  obtain ⟨written, writer, state⟩ := c
  obtain ⟨written', writer', state'⟩ := c'
  obtain rfl : writer = writer' := h.writer
  obtain rfl : state = state' := h.state
  unfold Console.flush
  dsimp only
  split
  · exact ⟨rfl, rfl, rfl, h.written⟩
  · exact ⟨rfl, rfl, rfl, h.written⟩

theorem writeLine (h : Appended before before' c c') (text : String) :
    (c.writeLine text).2 = (c'.writeLine text).2 ∧
      Appended before before' (c.writeLine text).1 (c'.writeLine text).1 := by
  obtain ⟨hresult, happended⟩ := h.write (Text.utf8 text)
  unfold Console.writeLine
  generalize c.write (Text.utf8 text) = r at hresult happended ⊢
  generalize c'.write (Text.utf8 text) = r' at hresult happended ⊢
  obtain ⟨c₁, result⟩ := r
  obtain ⟨c₁', result'⟩ := r'
  obtain rfl : result = result' := hresult
  cases result with
  | error e => exact ⟨rfl, happended⟩
  | ok => exact happended.write (Text.utf8 "\n")

end Console.Appended

/-! ### Used machines -/

/-- A machine between the runs on a program: a host has run the entry point and called methods with any arguments, with
any result, collected both generations and operated on the heap, or has gone over to another machine. -/
inductive Used (p : Program) : Machine → Prop where
  | fresh (console : Console) : Used p { console }
  | runEntry {m m' : Machine} {config : Config} {fuel : Nat} {args : List String} {result : Except Error Int32}
      (h : Used p m) (hrun : m.runEntry p config fuel args = some (m', result)) : Used p m'
  | invoke {m m' : Machine} {config : Config} {fuel : Nat} {method : Token} {args : List Value}
      {result : Except Error (Option Value)} (h : Used p m)
      (hrun : m.invoke p config fuel method args = some (m', result)) : Used p m'
  | collectMajor {m : Machine} (order : Traversal) (h : Used p m) : Used p (m.collectMajor order)
  | onHeap {m : Machine} (op : HeapOperation) (h : Used p m) : Used p { m with heap := op.apply m.heap }
  | renewed {m : Machine} (console : Console) (h : Used p m) : Used p { console, dispatch := m.dispatch }

theorem Used.onHeapAll {p : Program} {m : Machine} (h : Used p m) (ops : List HeapOperation) :
    Used p { m with heap := ops.foldl HeapOperation.apply m.heap } := by
  induction ops generalizing m with
  | nil => exact h
  | cons op ops ih => exact ih (h.onHeap op)

/-- What a host keeps between runs. -/
structure Machine.Idle (p : Program) (m : Machine) : Prop where
  consistent : m.heap.Consistent
  coherent : m.dispatch.Coherent p
  activations : m.activations = []

theorem Used.idle {p : Program} {m : Machine} (h : Used p m) : m.Idle p := by
  induction h with
  | fresh console => exact ⟨Heap.consistent_empty, Dispatch.coherent_empty p, rfl⟩
  | runEntry _ hrun ih =>
      refine ⟨ih.consistent.operated (Machine.runEntry_heap hrun), ?_, ?_⟩
      · exact (Machine.Event.runEntry hrun).learns ih.coherent |>.coherent
      · rw [Machine.runEntry_activations hrun, ih.activations]
  | invoke _ hrun ih =>
      refine ⟨ih.consistent.operated (Machine.invoke_heap hrun), ?_, ?_⟩
      · exact (Machine.Event.invoke hrun).learns ih.coherent |>.coherent
      · rw [Machine.invoke_activations hrun, ih.activations]
  | @collectMajor m order _ ih => exact ⟨ih.consistent.collectMajorBy order m.roots, ih.coherent, ih.activations⟩
  | onHeap op _ ih => exact ⟨ih.consistent.apply op, ih.coherent, ih.activations⟩
  | renewed console _ ih => exact ⟨Heap.consistent_empty, ih.coherent, rfl⟩

/-! ### Runs on used machines -/

/-- The coupling of a run on a fresh machine with one on a machine that has made `ahead` objects and `shift` identities.
The memos may differ in what they have learnt, and the consoles in what was written before. -/
def Coupling.afresh (p : Program) {config config' : Config} (hdepth : config.maxCallDepth = config'.maxCallDepth)
    (hverify : config.verifyBodies = config'.verifyBodies) (ahead shift : Nat) (before before' : Array UInt8) :
    Coupling p config config' :=
  { Coupling.paired hdepth hverify ahead shift (fun d d' => d.Coherent p ∧ d'.Coherent p) (by
      rintro d d' site target type htarget ⟨hd, hd'⟩
      have hasks := p.asksFor_of_virtualTarget htarget
      obtain ⟨hfound, hlearns⟩ := p.resolveIn_spec hd hasks type
      obtain ⟨hfound', hlearns'⟩ := p.resolveIn_spec hd' hasks type
      exact ⟨hfound.trans hfound'.symm, hlearns.coherent, hlearns'.coherent⟩) with
    Consoles := Console.Appended before before'
    writeLine := fun text h => h.writeLine text
    flush := fun h => h.flush }

/-- Related errors have one text. -/
theorem Renaming.Errors.message {ρ : Renaming} {e e' : Error} (h : ρ.Errors e e') : e.message = e'.message := by
  cases h with
  | plain => rfl
  | @thrown f g _ hfault =>
      change s!"unhandled exception: {f.text}" = s!"unhandled exception: {g.text}"
      rw [Fault.text_eq hfault.typeName hfault.message]

/-- Two runs of the entry point, on the machines `m` and `m'`, that a host cannot tell apart: they have the same exit
code or error, with the same text, where a payload may be another object that is the same up to the renaming of all it
refers to. Both write the same bytes and make as many objects, and no call is left in flight. -/
structure Machine.SameRun (m m' : Machine) (r r' : Machine × Except Error Int32) : Prop where
  answer : r.2.mapError Error.message = r'.2.mapError Error.message
  result : ∃ ρ : Renaming, m'.fresh = m.fresh + ρ.shift ∧ ρ.Agree Eq r.2 r'.2 ∧
    ∀ h k, ρ.rel h k → ∃ o o', r.1.heap.get? h = some o ∧ r'.1.heap.get? k = some o' ∧ ρ.Objects o o'
  console : Console.Appended m.console.written m'.console.written r.1.console r'.1.console
  allocated : ∃ count, r.1.heap.stats.allocated = m.heap.stats.allocated + count ∧
    r'.1.heap.stats.allocated = m'.heap.stats.allocated + count
  callDepth : r.1.callDepth = 0 ∧ r'.1.callDepth = 0

/-- **Sessions do not see each other.** A run of the entry point on a used machine ends within a number of steps if and
only if the run on a fresh machine does, whose writer is in the same state, and a host cannot tell the two apart. The
collections of the fresh machine may visit what they find in another order. -/
theorem Machine.session_isolation (p : Program) {m : Machine} (hused : Used p m) (config : Config)
    (visiting : Heap → Traversal) (fuel : Nat) (args : List String) (written : Array UInt8) :
    Option.Rel (SameRun { console := { m.console with written } } m)
      (runEntry p { config with visiting } fuel { console := { m.console with written } } args)
      (m.runEntry p config fuel args) := by
  have hidle := hused.idle
  let K : Coupling p { config with visiting } config :=
    .afresh p rfl rfl m.heap.stats.allocated m.fresh written m.console.written
  -- Nothing is paired at the start: the entry point is given strings only, so it has no way to an object left behind.
  have hstart : K.Machines (.nothing m.fresh) { console := { m.console with written } } m := by
    refine ⟨⟨⟨Heap.consistent_empty, hidle.consistent⟩, fun hrel => hrel.elim, fun hrel => hrel.elim, ?_⟩, ?_,
      ⟨Dispatch.coherent_empty p, hidle.coherent⟩, ⟨rfl, rfl, [], by simp, by simp⟩, (Nat.zero_add _).symm, rfl⟩
    · exact (Nat.zero_add _).symm
    · rw [hidle.activations]
      exact .nil
  have hruns := Coupling.runEntry hstart fuel args
  generalize hleft : runEntry p { config with visiting } fuel { console := { m.console with written } } args = r
    at hruns ⊢
  generalize hright : m.runEntry p config fuel args = r' at hruns ⊢
  cases hruns with
  | none => exact .none
  | @some r r' hends =>
      obtain ⟨m₁, result⟩ := r
      obtain ⟨m₁', result'⟩ := r'
      obtain ⟨ρ, hm, hresult⟩ := hends
      refine .some ⟨?_, ⟨ρ, ?_, hresult, fun h k => hm.heaps.object⟩, hm.console, ⟨m₁.heap.stats.allocated, ?_, ?_⟩,
        ?_, ?_⟩
      · cases hresult with
        | ok heq => exact congrArg Except.ok heq
        | error he => exact congrArg Except.error he.message
      · rw [hm.shift]
        exact (Nat.zero_add _).symm
      · exact (Nat.zero_add _).symm
      · exact hm.heaps.allocated.trans (Nat.add_comm _ _)
      · rw [Machine.callDepth, runEntry_activations hleft]
        rfl
      · rw [Machine.callDepth, runEntry_activations hright, hidle.activations]
        rfl

/-- What the host does after a run: it makes an old object that refers to a young one, and has the object that the run
left behind collected. -/
def shapeLitter : List HeapOperation :=
  [.allocate (.ofRow .typeDef 1) "Shape" ["next"], .collectMinor .stored [.object ⟨1, 0⟩],
    .allocate (.ofRow .typeDef 1) "Shape" [], .writeField ⟨1, 0⟩ "next" (.object ⟨2, 0⟩),
    .collectMajor .stored [.object ⟨1, 0⟩]]

def shapeLittered : Machine :=
  { shapeServed with heap := shapeLitter.foldl HeapOperation.apply shapeServed.heap }

/-- A second run finds a memo, a young and an old object, a remembered one and a slot to recycle, and makes its object
in that slot; and still it is the run of a fresh machine. -/
theorem Machine.session_isolation_littered : Used shapeProgram shapeLittered ∧
    (shapeLittered.heap.young = [⟨2, 0⟩] ∧ shapeLittered.heap.old = [⟨1, 0⟩] ∧
      shapeLittered.heap.remembered = [⟨1, 0⟩] ∧ shapeLittered.heap.free = [0] ∧
      shapeLittered.dispatch.entries.length = 1) ∧
    (shapeLittered.runEntry shapeProgram {} 20 []).map Prod.snd = some (.ok 4) ∧
    Option.Rel (SameRun {} shapeLittered) (runEntry shapeProgram {} 20 {} [])
      (shapeLittered.runEntry shapeProgram {} 20 []) := by
  have hruns : (runEntry shapeProgram {} 20 {} []).isSome = true := by decide_cbv
  obtain ⟨⟨m, result⟩, hrun⟩ := Option.isSome_iff_exists.1 hruns
  have hserved : m = shapeServed := by
    rw [shapeServed, hrun]
    rfl
  have hlittered : Used shapeProgram shapeLittered :=
    (Used.runEntry (.fresh {}) (hserved ▸ hrun)).onHeapAll shapeLitter
  have hconsole : shapeLittered.console = {} := by cbv
  have hsame := session_isolation shapeProgram hlittered {} (fun _ => .stored) 20 [] #[]
  rw [hconsole] at hsame
  exact ⟨hlittered, by decide_cbv, by decide_cbv, hsame⟩

end ManagedCode
