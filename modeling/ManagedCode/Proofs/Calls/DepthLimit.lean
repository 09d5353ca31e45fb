import ManagedCode.Proofs.Calls.Failures
import ManagedCode.Proofs.Calls.Unwinding

/-! The limit on the depth of calls. No run goes beyond it, and it is a cut-off only: a step under a larger limit is the
same step, unless under the smaller one it fails because there are as many calls as there may be. That failure cannot be
caught, so a run that does not end in it does not depend on the limit. -/

namespace ManagedCode

/-- The configuration with another limit on the depth of calls. -/
def Config.withLimit (config : Config) (limit : Nat) : Config :=
  { config with maxCallDepth := limit }

/-- The first outcome is the second, or it is that the calls have come to the limit. -/
def Outcome.CutOff (limit : Nat) (outcome outcome' : Outcome) : Prop :=
  outcome = outcome' ∨ ∃ m, outcome = .failed m (.stackOverflow limit)

theorem Program.calleeFrame_withLimit (p : Program) {config : Config} {limit : Nat}
    (hlimit : config.maxCallDepth ≤ limit) (depth : Nat) (method : Token) (args : List Value) :
    p.calleeFrame config depth method args = p.calleeFrame (config.withLimit limit) depth method args ∨
      p.calleeFrame config depth method args = .error (.stackOverflow config.maxCallDepth) := by
  unfold calleeFrame
  cases p.index.methodInfo method with
  | error e => exact Or.inl rfl
  | ok info =>
      change (if _ then _ else if _ then _ else _) = (if _ then _ else if _ then _ else _) ∨
        (if _ then _ else if _ then _ else _) = _
      split
      · exact Or.inl rfl
      · by_cases hfull : config.maxCallDepth ≤ depth
        · exact Or.inr (if_pos hfull)
        · have hroom : ¬(config.withLimit limit).maxCallDepth ≤ depth := by
            change ¬limit ≤ depth
            omega
          rw [if_neg hfull, if_neg hroom]
          exact Or.inl rfl

namespace Machine

variable {p : Program} {config : Config}

/-! ### Two limits -/

section Limits

variable {limit : Nat} (hlimit : config.maxCallDepth ≤ limit)

include hlimit

theorem enter_withLimit (m : Machine) (method : Token) (args : List Value) (use : ResultUse) :
    m.enter p config method args use = m.enter p (config.withLimit limit) method args use ∨
      m.enter p config method args use = .error (.stackOverflow config.maxCallDepth) := by
  rw [enter_eq, enter_eq]
  rcases p.calleeFrame_withLimit hlimit m.callDepth method args with heq | hfull
  · exact Or.inl (by rw [heq])
  · exact Or.inr (by rw [hfull]; rfl)

theorem callWith_cutOff (m : Machine) (a : Activation) (below : List Activation) (frame : Frame) (method : Token)
    (args : List Value) (use : ResultUse) : (m.callWith p config a below frame method args use).CutOff
      config.maxCallDepth (m.callWith p (config.withLimit limit) a below frame method args use) := by
  unfold callWith
  rcases enter_withLimit hlimit { m with activations := { a with frame } :: below } method args use with heq | hfull
  · exact Or.inl (by rw [heq])
  · exact Or.inr ⟨m, by rw [hfull]⟩

theorem call_cutOff (m : Machine) (a : Activation) (below : List Activation) (token : Token) :
    (m.call p config a below token).CutOff config.maxCallDepth
      (m.call p (config.withLimit limit) a below token) := by
  unfold call
  split
  · split
    · exact Or.inl rfl
    · split
      · exact Or.inl rfl
      · exact callWith_cutOff hlimit m a below _ _ _ _
  · exact Or.inl rfl
  · exact Or.inl rfl

theorem callVirtual_cutOff (m : Machine) (a : Activation) (below : List Activation) (token : Token) :
    (m.callVirtual p config a below token).CutOff config.maxCallDepth
      (m.callVirtual p (config.withLimit limit) a below token) := by
  unfold callVirtual
  split
  · exact Or.inl rfl
  · exact call_cutOff hlimit m a below token
  · split
    · exact Or.inl rfl
    · split
      · exact Or.inl rfl
      · exact Or.inl rfl
      · split
        · exact Or.inl rfl
        · exact callWith_cutOff hlimit _ a below _ _ _ _

theorem newObject_cutOff (m : Machine) (a : Activation) (below : List Activation) (token : Token) :
    (m.newObject p config a below token).CutOff config.maxCallDepth
      (m.newObject p (config.withLimit limit) a below token) := by
  unfold newObject
  split
  · exact Or.inl rfl
  · dsimp only
    split
    · exact Or.inl rfl
    · exact callWith_cutOff hlimit _ a below _ _ _ _

theorem perform_cutOff (m : Machine) (a : Activation) (below : List Activation) (op : Operation) :
    (m.perform p config a below op).CutOff config.maxCallDepth
      (m.perform p (config.withLimit limit) a below op) := by
  cases op with
  | call token => exact call_cutOff hlimit m a below token
  | callvirt token => exact callVirtual_cutOff hlimit m a below token
  | newobj token => exact newObject_cutOff hlimit m a below token
  | _ => exact Or.inl rfl

/-- **One step under two limits.** No handler takes the failure under the smaller one, so the step ends the run. -/
theorem step_cutOff (m : Machine) :
    (m.step p config).CutOff config.maxCallDepth (m.step p (config.withLimit limit)) := by
  unfold step
  split
  · exact Or.inl rfl
  · next a below _ =>
    split
    · exact Or.inl rfl
    · next i _ =>
      rcases perform_cutOff (p := p) hlimit m a below i.op with heq | ⟨m', hfull⟩
      · exact Or.inl (by rw [heq])
      · right
        rw [hfull]
        exact ⟨_, unwind_of_fatal m' rfl (a :: below)⟩

/-- **A run that does not end at the limit** is the same under every larger one. -/
theorem run_withLimit {fuel : Nat} {m m' : Machine} {result : Except Error (Option Value)}
    (h : m.run p config fuel = some (m', result)) (hresult : result ≠ .error (.stackOverflow config.maxCallDepth)) :
    m.run p (config.withLimit limit) fuel = some (m', result) := by
  induction fuel generalizing m with
  | zero => cases h
  | succ fuel ih =>
      rw [run_succ] at h ⊢
      rcases step_cutOff (p := p) hlimit m with heq | ⟨m₁, hfull⟩
      · rw [← heq]
        cases hstep : m.step p config with
        | running m₁ =>
            rw [hstep] at h
            exact ih h
        | returned m₁ value =>
            rw [hstep] at h
            exact h
        | failed m₁ e =>
            rw [hstep] at h
            exact h
      · rw [hfull] at h
        cases h
        exact absurd rfl hresult

theorem invoke_withLimit {fuel : Nat} {m m' : Machine} {method : Token} {args : List Value}
    {result : Except Error (Option Value)} (h : m.invoke p config fuel method args = some (m', result))
    (hresult : result ≠ .error (.stackOverflow config.maxCallDepth)) :
    m.invoke p (config.withLimit limit) fuel method args = some (m', result) := by
  unfold invoke at h ⊢
  rcases enter_withLimit (p := p) hlimit m method args .host with heq | hfull
  · rw [← heq]
    cases henter : m.enter p config method args .host with
    | error e =>
        rw [henter] at h
        exact h
    | ok m₁ =>
        rw [henter] at h
        exact run_withLimit hlimit h hresult
  · rw [hfull] at h
    cases h
    exact absurd rfl hresult

theorem runEntry_withLimit {fuel : Nat} {m m' : Machine} {args : List String} {result : Except Error Int32}
    (h : m.runEntry p config fuel args = some (m', result))
    (hresult : result ≠ .error (.stackOverflow config.maxCallDepth)) :
    m.runEntry p (config.withLimit limit) fuel args = some (m', result) := by
  obtain ⟨m₁, returned, hfinish, hinvoke⟩ := runEntry_cases h
  have hreturned : returned ≠ .error (.stackOverflow config.maxCallDepth) := by
    rintro rfl
    cases hfinish
    exact hresult rfl
  unfold runEntry
  dsimp only
  rw [invoke_withLimit hlimit hinvoke hreturned]
  exact congrArg some hfinish

end Limits

/-! ### Within the limit -/

theorem unwind_callDepth {m m' : Machine} {e : Error} {acts : List Activation}
    (h : m.unwind p e acts = .running m') : m'.callDepth ≤ acts.length :=
  (unwind_invariant (P := fun left => left.length ≤ acts.length) (fun _ _ _ hleft => Nat.le_of_succ_le hleft)
    (fun _ _ _ _ hleft => hleft) (Nat.le_refl _) h).1

theorem Effect.callDepth {acts : List Activation} {a : Activation} {below : List Activation} {m : Machine}
    (h : Effect p config acts a below (.running m)) (hbelow : below.length + 1 ≤ config.maxCallDepth) :
    m.callDepth ≤ config.maxCallDepth := by
  unfold Machine.callDepth
  cases h with
  | stays _ hacts =>
      rw [hacts]
      exact hbelow
  | calls _ _ _ hdepth hacts =>
      rw [hacts]
      exact hdepth
  | resumes _ hrest _ hacts =>
      rw [hrest, List.length_cons] at hbelow
      rw [hacts, List.length_cons]
      omega

/-- **A step stays within the limit.** -/
theorem step_callDepth {m m' : Machine} (hm : m.callDepth ≤ config.maxCallDepth)
    (h : m.step p config = .running m') : m'.callDepth ≤ config.maxCallDepth := by
  unfold step at h
  split at h
  · cases h
  · next a below hacts =>
    have hbelow : below.length + 1 ≤ config.maxCallDepth := by
      rw [callDepth, hacts, List.length_cons] at hm
      exact hm
    split at h
    · have heffect : Effect p config (a :: below) a below (m.deliver a.use below none) := deliver_effect rfl _ _
      rw [h] at heffect
      exact heffect.callDepth hbelow
    · next i _ =>
      have heffect : Effect p config m.activations a below (m.perform p config a below i.op) := perform_effect i.op
      split at h
      · exact (unwind_callDepth h).trans hbelow
      · rw [h] at heffect
        exact heffect.callDepth hbelow

theorem Reaches.callDepth {m m' : Machine} (h : Reaches p config m m') (hm : m.callDepth ≤ config.maxCallDepth) :
    m'.callDepth ≤ config.maxCallDepth := by
  induction h with
  | refl => exact hm
  | tail _ hstep ih => exact step_callDepth ih hstep

/-! ### At the limit -/

theorem calleeFrame_stackOverflow {depth n : Nat} {method : Token} {args : List Value}
    (h : p.calleeFrame config depth method args = .error (.stackOverflow n)) :
    n = config.maxCallDepth ∧ config.maxCallDepth ≤ depth := by
  rcases p.calleeFrame_fails config h with hinner | ⟨info, -, -, heq⟩ | ⟨heq, hfull⟩
  · cases hinner
  · cases heq
  · exact ⟨Error.stackOverflow.inj heq, hfull⟩

/-- An instruction that finds the stack of calls full names the limit, and the calls have come to it. -/
theorem perform_stackOverflow {m m' : Machine} {a : Activation} {below : List Activation} {op : Operation} {n : Nat}
    (h : m.perform p config a below op = .failed m' (.stackOverflow n)) :
    n = config.maxCallDepth ∧ config.maxCallDepth ≤ below.length + 1 := by
  have hfails : (m.perform p config a below op).FailsInside p config (below.length + 1) := perform_fails m a below op
  rw [h] at hfails
  rcases hfails with hinner | ⟨method, args, hcallee⟩
  · cases hinner
  · exact calleeFrame_stackOverflow hcallee

theorem step_stackOverflow {m m' : Machine} {n : Nat} (h : m.step p config = .failed m' (.stackOverflow n)) :
    n = config.maxCallDepth := by
  obtain ⟨op, e, ⟨a, below, i, m₁, -, -, rfl, hperform⟩, rfl | hinner⟩ := step_failed h
  · exact (perform_stackOverflow hperform).1
  · cases hinner

theorem run_stackOverflow {fuel : Nat} {m m' : Machine} {n : Nat}
    (h : m.run p config fuel = some (m', .error (.stackOverflow n))) : n = config.maxCallDepth := by
  obtain ⟨m₁, -, hstep⟩ := run_failed h
  exact step_stackOverflow hstep

theorem invoke_stackOverflow {fuel : Nat} {m m' : Machine} {method : Token} {args : List Value} {n : Nat}
    (h : m.invoke p config fuel method args = some (m', .error (.stackOverflow n))) : n = config.maxCallDepth := by
  unfold invoke at h
  split at h
  · exact run_stackOverflow h
  · next henter =>
    cases h
    rw [enter_eq] at henter
    cases hcallee : p.calleeFrame config m.callDepth method args with
    | ok callee =>
        rw [hcallee] at henter
        cases henter
    | error e =>
        rw [hcallee] at henter
        cases henter
        exact (calleeFrame_stackOverflow hcallee).1

/-- The host starts a run, which is at the second machine then: it calls a method, or the entry point with a list of
strings. -/
inductive Begins (p : Program) (config : Config) (m : Machine) : Machine → Prop where
  | method {m₁ : Machine} (method : Token) (args : List Value)
      (henter : m.enter p config method args .host = .ok m₁) : Begins p config m m₁
  | entryPoint {m₁ : Machine} (args : List String)
      (henter : (m.entryArguments p args).1.enter p config p.entryPoint (m.entryArguments p args).2 .host = .ok m₁) :
      Begins p config m m₁

theorem Begins.activations {m m₁ : Machine} (h : Begins p config m m₁) : ∃ callee,
    m₁.activations = ⟨callee, .host⟩ :: m.activations ∧ m.callDepth < config.maxCallDepth := by
  cases h with
  | method method args henter =>
      obtain ⟨callee, -, hdepth, rfl⟩ := enter_cases henter
      exact ⟨callee, rfl, hdepth⟩
  | entryPoint args henter =>
      obtain ⟨callee, -, hdepth, rfl⟩ := enter_cases henter
      rw [callDepth, entryArguments_activations] at hdepth
      exact ⟨callee, congrArg (_ :: ·) (entryArguments_activations args), hdepth⟩

/-- **The limit on the depth of calls.** Let no call be in flight. At every point of a run there are at most as many
calls as the configuration allows. An instruction that finds the stack of calls full does so at the limit, names it, and
ends the run, whatever regions are around; and an overflow that the host sees names the limit. A run that ends in
anything else ends in the same result and the same machine under every larger limit. -/
theorem call_depth_limit (p : Program) (config : Config) {m : Machine} (hidle : m.activations = []) :
    (∀ m₁ m₂, Begins p config m m₁ → Reaches p config m₁ m₂ →
      m₂.callDepth ≤ config.maxCallDepth ∧
      ∀ a below i m' n, m₂.activations = a :: below → a.frame.code[a.frame.ip]? = some i →
        m₂.perform p config a below i.op = .failed m' (.stackOverflow n) →
        n = config.maxCallDepth ∧ m₂.callDepth = config.maxCallDepth ∧
          m₂.EndsIn p config { m' with activations := [] } (.stackOverflow config.maxCallDepth)) ∧
    (∀ fuel m' n,
      (∀ method args, m.invoke p config fuel method args = some (m', .error (.stackOverflow n)) →
        n = config.maxCallDepth) ∧
      ∀ args, m.runEntry p config fuel args = some (m', .error (.stackOverflow n)) → n = config.maxCallDepth) ∧
    ∀ limit, config.maxCallDepth ≤ limit → ∀ fuel m',
      (∀ method args result, m.invoke p config fuel method args = some (m', result) →
        (∀ n, result ≠ .error (.stackOverflow n)) →
        m.invoke p (config.withLimit limit) fuel method args = some (m', result)) ∧
      ∀ args result, m.runEntry p config fuel args = some (m', result) →
        (∀ n, result ≠ .error (.stackOverflow n)) →
        m.runEntry p (config.withLimit limit) fuel args = some (m', result) := by
  refine ⟨fun m₁ m₂ hbegins hreach => ?_, fun fuel m' n => ⟨fun method args h => ?_, fun args h => ?_⟩,
    fun limit hlimit fuel m' => ⟨fun method args result h hresult => ?_, fun args result h hresult => ?_⟩⟩
  · obtain ⟨callee, hacts, hdepth⟩ := hbegins.activations
    rw [hidle] at hacts
    have hwithin : m₂.callDepth ≤ config.maxCallDepth := by
      refine hreach.callDepth ?_
      rw [callDepth, hidle] at hdepth
      rw [callDepth, hacts]
      exact hdepth
    refine ⟨hwithin, fun a below i m' n hactive hi hperform => ?_⟩
    obtain ⟨rfl, hfull⟩ := perform_stackOverflow hperform
    have hcalls : m₂.callDepth = below.length + 1 := by rw [callDepth, hactive, List.length_cons]
    have hbase : belowHost m₂.activations = [] := by
      have hrun := hreach.activations (by rw [hacts]; exact List.cons_ne_nil _ _)
      rw [hrun.2, hacts]
      rfl
    have hstep : m₂.step p config = m'.unwind p (.stackOverflow config.maxCallDepth) m₂.activations := by
      simp only [step, hactive, hi, hperform]
    rw [unwind_of_fatal m' rfl, hbase] at hstep
    exact ⟨rfl, by omega, endsIn_of_step hstep⟩
  · exact invoke_stackOverflow h
  · rcases runEntry_error h with hfailed | ⟨detail, hdetail⟩
    · exact invoke_stackOverflow hfailed
    · cases hdetail
  · exact invoke_withLimit hlimit h (hresult _)
  · exact runEntry_withLimit hlimit h (hresult _)

end Machine

/-- The entry point calls a method in a region that takes every fault. -/
def nestedImage : Image where
  entryPoint := .ofRow .methodDef 1
  types := [{ name := "Program" }]
  methods :=
    [{ owner := .ofRow .typeDef 1, name := "Main",
       code := [0x28, 0x02, 0x00, 0x00, 0x06, 0x2A, 0x26, 0x16, 0x2A],
       regions := [{ kind := .catching, tryOffset := 0, tryLength := 5, handlerOffset := 6 }] },
     { owner := .ofRow .typeDef 1, name := "Seven", code := [0x1D, 0x2A] }]

def nestedProgram : Program where
  image := nestedImage
  index := (Index.build nestedImage).toOption.getD {}
  entryPoint := .ofRow .methodDef 1
  entrySignature := {}

/-- One call is too few for the program, and the region does not help it; two are enough, and then so are any more. -/
theorem Machine.call_depth_limit_nested :
    (Machine.runEntry nestedProgram { maxCallDepth := 1 } 9 {} []).map Prod.snd = some (.error (.stackOverflow 1)) ∧
    ∃ m', Machine.runEntry nestedProgram { maxCallDepth := 2 } 9 {} [] = some (m', .ok 7) ∧
      ∀ limit, 2 ≤ limit → Machine.runEntry nestedProgram { maxCallDepth := limit } 9 {} [] = some (m', .ok 7) := by
  have hresult : (Machine.runEntry nestedProgram { maxCallDepth := 2 } 9 {} []).map Prod.snd = some (.ok 7) := by
    decide_cbv
  obtain ⟨⟨m', result⟩, hrun, rfl⟩ := Option.map_eq_some_iff.1 hresult
  refine ⟨by decide_cbv, m', hrun, fun limit hlimit => ?_⟩
  have hlimits := (call_depth_limit nestedProgram { maxCallDepth := 2 } (m := {}) rfl).2.2 limit hlimit 9 m'
  exact hlimits.2 [] (.ok 7) hrun fun n h => by cases h

end ManagedCode
