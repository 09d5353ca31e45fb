import ManagedCode.Proofs.Calls.Moves
import ManagedCode.Proofs.LiveReferences
import Mathlib.Logic.Relation

/-! Calls are isolated. A call of the host leaves the calls that were in flight as they were, at every instruction of
its run and at its end. A call that a method makes is such a call: its run goes through the same steps as the run of a
call of the host from the same state, and when that one ends the caller goes on, as it was, with the result or the
error. -/

namespace ManagedCode

/-! ### The calls of a run -/

/-- The calls down to the innermost call of the host. -/
def ownCalls : List Activation → List Activation
  | [] => []
  | a :: below => if a.use = .host then [a] else a :: ownCalls below

theorem ownCalls_append_belowHost (acts : List Activation) : ownCalls acts ++ belowHost acts = acts := by
  induction acts with
  | nil => rfl
  | cons a below ih =>
      rw [ownCalls, belowHost]
      split
      · rfl
      · rw [List.cons_append, ih]

theorem ownCalls_ne_nil {acts : List Activation} (h : acts ≠ []) : ownCalls acts ≠ [] := by
  cases acts with
  | nil => exact absurd rfl h
  | cons a below =>
      rw [ownCalls]
      split <;> exact List.cons_ne_nil _ _

namespace Machine

variable {p : Program} {config : Config}

/-- A run that is at the first machine comes to the second. -/
def Reaches (p : Program) (config : Config) : Machine → Machine → Prop :=
  Relation.ReflTransGen fun m m' => m.step p config = .running m'

theorem unwind_running {m m' : Machine} {e : Error} {acts : List Activation} (h : m.unwind p e acts = .running m') :
    m'.activations ≠ [] :=
  (unwind_invariant (P := fun _ => True) (fun _ _ _ _ => trivial) (fun _ _ _ _ _ => trivial) trivial h).2

/-- A machine that goes on has a call in flight. -/
theorem step_running {m m' : Machine} (h : m.step p config = .running m') : m'.activations ≠ [] := by
  cases hacts : m.activations with
  | nil =>
      rw [step, hacts] at h
      cases h
  | cons a below =>
      obtain ⟨move, -, hstep⟩ := step_of_activations p config hacts
      rw [hstep] at h
      cases move with
      | stays m₁ frame =>
          cases h
          exact List.cons_ne_nil _ _
      | calls m₁ frame callee use =>
          cases h
          exact List.cons_ne_nil _ _
      | fails m₁ e => exact unwind_running h
      | returns m₁ value =>
          change m₁.deliver a.use below value = .running m' at h
          unfold deliver at h
          split at h <;> cases h <;> exact List.cons_ne_nil _ _

theorem Reaches.activations {m m' : Machine} (h : Reaches p config m m') (hm : m.activations ≠ []) :
    m'.activations ≠ [] ∧ belowHost m'.activations = belowHost m.activations := by
  induction h with
  | refl => exact ⟨hm, rfl⟩
  | @tail m₁ m₂ _ hstep ih =>
      refine ⟨step_running hstep, ?_⟩
      have habove := step_above p config m₁
      rw [hstep] at habove
      exact Eq.trans habove ih.2

/-- In a run of a call of the host, the calls below those of the run are the calls in flight before it. -/
theorem Reaches.base {m m₁ m₂ : Machine} {method : Token} {args : List Value}
    (henter : m.enter p config method args .host = .ok m₁) (hreach : Reaches p config m₁ m₂) :
    m₂.activations ≠ [] ∧ belowHost m₂.activations = m.activations := by
  obtain ⟨callee, -, -, rfl⟩ := enter_cases henter
  exact hreach.activations (List.cons_ne_nil _ _)

/-! ### Calls of the host and calls of a method -/

/-- The calls in flight with the innermost call of the host turned into a call of the method below it. -/
def lend (use : ResultUse) : List Activation → List Activation
  | [] => []
  | a :: below => if a.use = .host then { a with use } :: below else a :: lend use below

theorem lend_host (use : ResultUse) (frame : Frame) (below : List Activation) :
    lend use (⟨frame, .host⟩ :: below) = ⟨frame, use⟩ :: below :=
  if_pos rfl

theorem lend_cons {use' : ResultUse} (h : use' ≠ .host) (use : ResultUse) (frame : Frame) (below : List Activation) :
    lend use (⟨frame, use'⟩ :: below) = ⟨frame, use'⟩ :: lend use below :=
  if_neg h

theorem map_frame_lend (use : ResultUse) (acts : List Activation) :
    (lend use acts).map Activation.frame = acts.map Activation.frame := by
  induction acts with
  | nil => rfl
  | cons a below ih =>
      obtain ⟨frame, use'⟩ := a
      rcases eq_or_ne use' .host with rfl | h
      · rw [lend_host]
        rfl
      · rw [lend_cons h, List.map_cons, List.map_cons, ih]

/-- The callers go on after a call has ended: with its result, or looking for a handler of its error. -/
def resume (p : Program) (use : ResultUse) (m : Machine) (result : Except Error (Option Value)) : Outcome :=
  match result with
  | .ok value => m.deliver use m.activations value
  | .error e => m.unwind p e m.activations

/-- What a step comes to if the call of the host is a call of a method. -/
def handOver (p : Program) (use : ResultUse) : Outcome → Outcome
  | .running m => .running { m with activations := lend use m.activations }
  | .returned m value => m.resume p use (.ok value)
  | .failed m e => m.resume p use (.error e)

variable {use : ResultUse}

theorem unwind_lend (huse : use ≠ .host) (m : Machine) (e : Error) (acts : List Activation) :
    m.unwind p e (lend use acts) = handOver p use (m.unwind p e acts) := by
  induction acts generalizing e with
  | nil =>
      change m.unwind p e [] = handOver p use (m.unwind p e [])
      rw [unwind, handOver, resume, unwind]
  | cons a below ih =>
      obtain ⟨frame, use'⟩ := a
      rcases eq_or_ne use' .host with rfl | h
      · rw [lend_host, unwind_cons, unwind_cons]
        dsimp only
        cases frame.answer p e with
        | handles fault index => simp only [handOver, lend_host]
        | passes e' =>
            simp only [if_true, if_neg huse]
            exact (unwind_withActivations m e' below below).symm
      · rw [lend_cons h, unwind_cons, unwind_cons]
        dsimp only
        cases frame.answer p e with
        | handles fault index => simp only [handOver, lend_cons h]
        | passes e' => simp only [if_neg h, ih]

theorem deliver_nil (m : Machine) (use : ResultUse) (value : Option Value) :
    m.deliver use [] value = .returned { m with activations := [] } value := by
  cases use <;> rfl

/-- A call that ends for its caller hands its result over in the same way, whoever the caller's caller is. -/
theorem deliver_lend (m : Machine) {use' : ResultUse} (h : use' ≠ .host) (below : List Activation)
    (value : Option Value) :
    m.deliver use' (lend use below) value = handOver p use (m.deliver use' below value) := by
  cases below with
  | nil =>
      change m.deliver use' [] value = _
      rw [deliver_nil, handOver, resume, deliver_nil]
  | cons b rest =>
      obtain ⟨frame, use''⟩ := b
      rcases eq_or_ne use'' .host with rfl | h'
      · rw [lend_host]
        cases use' with
        | host => exact absurd rfl h
        | push => simp only [deliver, handOver, lend_host]
        | discard => simp only [deliver, handOver, lend_host]
      · rw [lend_cons h']
        cases use' with
        | host => exact absurd rfl h
        | push => simp only [deliver, handOver, lend_cons h']
        | discard => simp only [deliver, handOver, lend_cons h']

/-- The move of the call of the host itself, made for a method. -/
theorem settled_lend_host (huse : use ≠ .host) {move : Move} (hmove : move.Proper) (frame : Frame)
    (below : List Activation) :
    move.settled p ⟨frame, use⟩ below = handOver p use (move.settled p ⟨frame, .host⟩ below) := by
  cases move with
  | stays m f =>
      exact congrArg (fun acts => Outcome.running { m with activations := acts }) (lend_host use f below).symm
  | calls m f callee use' =>
      change Outcome.running _ = .running _
      dsimp only
      rw [lend_cons hmove.2, lend_host]
  | returns m value => exact (deliver_withActivations below use below value).symm
  | fails m e =>
      change m.unwind p e _ = handOver p use (m.unwind p e _)
      rw [← unwind_lend huse, lend_host]

/-- The move of a call above the call of the host. -/
theorem settled_lend_cons (huse : use ≠ .host) {move : Move} (hmove : move.Proper) (frame : Frame) {use' : ResultUse}
    (h : use' ≠ .host) (below : List Activation) :
    move.settled p ⟨frame, use'⟩ (lend use below) = handOver p use (move.settled p ⟨frame, use'⟩ below) := by
  cases move with
  | stays m f =>
      change Outcome.running _ = .running _
      dsimp only
      rw [lend_cons h]
  | calls m f callee use'' =>
      change Outcome.running _ = .running _
      dsimp only
      rw [lend_cons hmove.2, lend_cons h]
  | returns m value => exact deliver_lend m h below value
  | fails m e =>
      change m.unwind p e _ = handOver p use (m.unwind p e _)
      rw [← unwind_lend huse, lend_cons h]

/-- **One step of a call of a method** is the step of a call of the host, handed over to the caller if it ends the
call. -/
theorem step_lend (huse : use ≠ .host) (m : Machine) :
    { m with activations := lend use m.activations }.step p config = handOver p use (m.step p config) := by
  obtain ⟨heap, acts, dispatch, console, fresh⟩ := m
  cases acts with
  | nil => cases use <;> rfl
  | cons a below =>
      obtain ⟨frame, use'⟩ := a
      obtain ⟨move, hproper, hmove⟩ := step_move p config ⟨heap, [], dispatch, console, fresh⟩ frame
        (below.map Activation.frame)
      have hstep := hmove use' below rfl
      rcases eq_or_ne use' .host with rfl | h
      · have hlent := hmove use below rfl
        dsimp only at hstep hlent ⊢
        rw [lend_host, hstep, hlent]
        exact settled_lend_host huse hproper frame below
      · have hlent := hmove use' (lend use below) (map_frame_lend use below)
        dsimp only at hstep hlent ⊢
        rw [lend_cons h, hstep, hlent]
        exact settled_lend_cons huse hproper frame h below

/-- The rest of a run after the outcome of a step. -/
def runOn (p : Program) (config : Config) (fuel : Nat) : Outcome → Option (Machine × Except Error (Option Value))
  | .running m => m.run p config fuel
  | .returned m value => some (m, .ok value)
  | .failed m e => some (m, .error e)

theorem run_succ (fuel : Nat) (m : Machine) : m.run p config (fuel + 1) = runOn p config fuel (m.step p config) := by
  rw [run]
  cases m.step p config <;> rfl

/-- A run that fails comes to a step that does. -/
theorem run_failed {fuel : Nat} {m m' : Machine} {e : Error} (h : m.run p config fuel = some (m', .error e)) :
    ∃ m₁, Reaches p config m m₁ ∧ m₁.step p config = .failed m' e := by
  induction fuel generalizing m with
  | zero => cases h
  | succ fuel ih =>
      rw [run_succ] at h
      cases hstep : m.step p config with
      | running m₁ =>
          rw [hstep] at h
          obtain ⟨m₂, hreach, hfails⟩ := ih h
          exact ⟨m₂, .head hstep hreach, hfails⟩
      | returned m₁ value =>
          rw [hstep] at h
          cases h
      | failed m₁ e₁ =>
          rw [hstep] at h
          cases h
          exact ⟨m, .refl, hstep⟩

/-- **A run of a call of a method** goes as that of a call of the host, and then on in the caller. -/
theorem run_lend (huse : use ≠ .host) (fuel : Nat) (m : Machine) :
    (m.run p config fuel = none → { m with activations := lend use m.activations }.run p config fuel = none) ∧
      ∀ m' result, m.run p config fuel = some (m', result) → ∃ left, left < fuel ∧
        { m with activations := lend use m.activations }.run p config fuel =
          runOn p config left (m'.resume p use result) := by
  induction fuel generalizing m with
  | zero =>
      refine ⟨fun _ => rfl, fun m' result h => ?_⟩
      cases h
  | succ fuel ih =>
      rw [run_succ, run_succ, step_lend huse]
      cases m.step p config with
      | running m₁ =>
          refine ⟨(ih m₁).1, fun m' result h => ?_⟩
          obtain ⟨left, hleft, hrun⟩ := (ih m₁).2 m' result h
          exact ⟨left, by omega, hrun⟩
      | returned m₁ value =>
          refine ⟨fun h => (by cases h), fun m' result h => ?_⟩
          cases h
          exact ⟨fuel, Nat.lt_succ_self fuel, rfl⟩
      | failed m₁ e =>
          refine ⟨fun h => (by cases h), fun m' result h => ?_⟩
          cases h
          exact ⟨fuel, Nat.lt_succ_self fuel, rfl⟩

theorem enter_lend {m m₁ : Machine} {method : Token} {args : List Value}
    (henter : m.enter p config method args use = .ok m₁) : ∃ m₀, m.enter p config method args .host = .ok m₀ ∧
      m₁ = { m₀ with activations := lend use m₀.activations } := by
  rw [enter_eq] at henter
  cases hcallee : p.calleeFrame config m.callDepth method args with
  | error e =>
      rw [hcallee] at henter
      cases henter
  | ok callee =>
      rw [hcallee] at henter
      cases henter
      refine ⟨{ m with activations := ⟨callee, .host⟩ :: m.activations }, ?_, ?_⟩
      · rw [enter_eq, hcallee]
        rfl
      · dsimp only
        rw [lend_host]

/-- **Calls are isolated.** When a call of the host ends, with a result or an error, the calls in flight are those from
before it, frame by frame; at every instruction of its run they are below the calls of the run. A call that a method
makes is run as a call of the host from the same state, and the callers go on with what that one leaves them. -/
theorem call_isolation (p : Program) (config : Config) (m : Machine) (method : Token) (args : List Value) :
    (∀ fuel m' result, m.invoke p config fuel method args = some (m', result) →
      m'.activations = m.activations ∧ m'.callDepth = m.callDepth) ∧
    (∀ m₁ m₂, m.enter p config method args .host = .ok m₁ → Reaches p config m₁ m₂ →
      ∃ own, own ≠ [] ∧ m₂.activations = own ++ m.activations) ∧
    ∀ use m₁, use ≠ .host → m.enter p config method args use = .ok m₁ → ∀ fuel,
      (m.invoke p config fuel method args = none → m₁.run p config fuel = none) ∧
      ∀ m' result, m.invoke p config fuel method args = some (m', result) → ∃ left, left < fuel ∧
        m₁.run p config fuel = runOn p config left (m'.resume p use result) := by
  refine ⟨fun fuel m' result h => ?_, fun m₁ m₂ henter hreach => ?_, fun use m₁ huse henter fuel => ?_⟩
  · have hacts := invoke_activations h
    exact ⟨hacts, congrArg List.length hacts⟩
  · obtain ⟨hne, hbase⟩ := hreach.base henter
    refine ⟨ownCalls m₂.activations, ownCalls_ne_nil hne, ?_⟩
    rw [← hbase, ownCalls_append_belowHost]
  · obtain ⟨m₀, hhost, rfl⟩ := enter_lend henter
    have hinvoke : m.invoke p config fuel method args = m₀.run p config fuel := by
      rw [invoke, hhost]
    rw [hinvoke]
    exact run_lend huse fuel m₀

/-- The entry point is called a second time while its first call is in flight, by the host and by a method, and makes
its object in either case. -/
theorem call_isolation_ring : ringStart.callDepth = 1 ∧ ∃ m' m₁,
    ringStart.invoke ringProgram {} 9 (.ofRow .methodDef 2) [] = some (m', .ok (some (.int 7))) ∧
    m'.activations = ringStart.activations ∧
    ringStart.enter ringProgram {} (.ofRow .methodDef 2) [] .push = .ok m₁ ∧ ∃ left, left < 9 ∧
      m₁.run ringProgram {} 9 =
        runOn ringProgram {} left (m'.resume ringProgram .push (.ok (some (.int 7)))) := by
  have hresult : (ringStart.invoke ringProgram {} 9 (.ofRow .methodDef 2) []).map Prod.snd =
      some (.ok (some (.int 7))) := by decide_cbv
  have hstarts : (ringStart.enter ringProgram {} (.ofRow .methodDef 2) [] .push).toBool = true := by decide_cbv
  obtain ⟨⟨m', result⟩, hinvoke, rfl⟩ := Option.map_eq_some_iff.1 hresult
  obtain ⟨ends, -, calls⟩ := call_isolation ringProgram {} ringStart (.ofRow .methodDef 2) []
  cases henter : ringStart.enter ringProgram {} (.ofRow .methodDef 2) [] .push with
  | error e =>
      rw [henter] at hstarts
      cases hstarts
  | ok m₁ =>
      exact ⟨by decide_cbv, m', m₁, hinvoke, (ends 9 m' _ hinvoke).1, rfl,
        (calls .push m₁ (by decide) henter 9).2 m' _ hinvoke⟩

end Machine
end ManagedCode
