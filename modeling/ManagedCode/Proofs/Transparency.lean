import ManagedCode.Proofs.Lockstep.Heaps

/-! Collections cannot be seen. A run that collects at every return and a run that never does go in lockstep: after the
same number of steps both have ended or none has, with the same exit code or error, output, number of objects made and
dispatch memo. They differ in the handles of their objects only, which no program and no error text shows. -/

namespace ManagedCode

/-! ### What a host sees of a run -/

/-- Errors that are the same but for the handle of a thrown object. -/
inductive Error.Alike : Error → Error → Prop where
  | same (e : Error) : Alike e e
  | thrown {f f' : Fault} (identity : Option Nat) (htypeName : f.typeName = f'.typeName)
      (hancestry : f.ancestry = f'.ancestry) (hmessage : f.message = f'.message)
      (hpayload : f.payload.isSome = f'.payload.isSome) : Alike (.thrown f identity) (.thrown f' identity)

/-- Alike errors have one text. -/
theorem Error.Alike.message {e e' : Error} (h : e.Alike e') : e.message = e'.message := by
  cases h with
  | same => rfl
  | @thrown f g _ htypeName _ hmessage _ =>
      change s!"unhandled exception: {f.text}" = s!"unhandled exception: {g.text}"
      rw [Fault.text_eq htypeName hmessage]

/-- The same result, or alike errors. -/
inductive SameResult {α : Type} : Except Error α → Except Error α → Prop where
  | ok (a : α) : SameResult (.ok a) (.ok a)
  | error {e e' : Error} (h : e.Alike e') : SameResult (.error e) (.error e')

/-- What a host can see of the end of a run is the same, and no call is in flight. -/
structure Machine.SameEnd (r r' : Machine × Except Error Int32) : Prop where
  result : SameResult r.2 r'.2
  console : r.1.console = r'.1.console
  allocated : r.1.heap.stats.allocated = r'.1.heap.stats.allocated
  dispatch : r.1.dispatch = r'.1.dispatch
  callDepth : r.1.callDepth = 0 ∧ r'.1.callDepth = 0

theorem Renaming.Errors.alike {ρ : Renaming} (hshift : ρ.shift = 0) {e e' : Error} (h : ρ.Errors e e') :
    e.Alike e' := by
  cases h with
  | plain => exact .same e
  | thrown identity hfault =>
      have hidentity : identity.map (· + ρ.shift) = identity := by
        cases identity <;> simp [hshift]
      rw [hidentity]
      refine .thrown identity hfault.typeName hfault.ancestry hfault.message ?_
      have hpayload := hfault.payload
      generalize Fault.payload _ = payload at hpayload ⊢
      generalize Fault.payload _ = payload' at hpayload ⊢
      cases hpayload with
      | none => rfl
      | some => rfl

/-- **Collections cannot be seen.** -/
theorem Machine.runEntry_gc_transparent (p : Program) (config : Config) (console : Console) (args : List String)
    (fuel : Nat) : Option.Rel SameEnd (runEntry p { config with gcEnabled := true } fuel { console } args)
      (runEntry p { config with gcEnabled := false } fuel { console } args) := by
  let K : Coupling p { config with gcEnabled := true } { config with gcEnabled := false } :=
    Coupling.paired rfl rfl 0 0 Eq fun _ _ heq => heq ▸ ⟨rfl, rfl⟩
  have hstart : K.Machines (.nothing 0) { console } { console } := by
    refine ⟨⟨⟨Heap.consistent_empty, Heap.consistent_empty⟩, fun hrel => hrel.elim, fun hrel => hrel.elim, rfl⟩,
      .nil, rfl, rfl, rfl, rfl⟩
  have hruns := Coupling.runEntry hstart fuel args
  generalize hleft : runEntry p { config with gcEnabled := true } fuel { console } args = r at hruns ⊢
  generalize hright : runEntry p { config with gcEnabled := false } fuel { console } args = r' at hruns ⊢
  cases hruns with
  | none => exact .none
  | @some r r' hends =>
      obtain ⟨m, result⟩ := r
      obtain ⟨m', result'⟩ := r'
      obtain ⟨ρ, hm, hresult⟩ := hends
      have hallocated : m'.heap.stats.allocated = m.heap.stats.allocated + 0 := hm.heaps.allocated
      refine .some ⟨?_, hm.console, hallocated.symm, hm.memos, ?_, ?_⟩
      · cases hresult with
        | ok heq => exact heq ▸ .ok _
        | error he => exact .error (he.alike hm.shift)
      · rw [Machine.callDepth, runEntry_activations hleft]
        rfl
      · rw [Machine.callDepth, runEntry_activations hright]
        rfl

end ManagedCode
