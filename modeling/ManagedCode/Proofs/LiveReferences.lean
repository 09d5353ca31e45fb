import ManagedCode.Proofs.Lockstep.Heaps
import Mathlib

/-! No reference dangles. A run is in lockstep with itself under the renaming that pairs every live object with itself,
so at every instruction the calls in flight and the fields of all objects, also of those that cannot be reached any
more, refer to live objects, and no operation meets a stale handle. The host may run the entry point, call methods with
live arguments and collect both generations, in any order. -/

namespace ManagedCode

namespace Renaming

/-- The renaming that pairs each live object with itself. -/
def live (heap : Heap) : Renaming where
  rel h k := h = k ∧ heap.contains h = true
  oneToOne := by
    rintro h h' k k' ⟨rfl, -⟩ ⟨rfl, -⟩
    exact Iff.rfl

variable {heap heap' : Heap}

theorem live_congr (h : ∀ a, heap.contains a = heap'.contains a) : live heap = live heap' := by
  ext a b
  · change a = b ∧ _ ↔ a = b ∧ _
    rw [h]
  · rfl

theorem Values.eq_of_live {v v' : Value} (hv : (live heap).Values v v') : v = v' := by
  cases hv with
  | object hrel => rw [hrel.1]
  | @fault identity f f' hfault =>
      have hpayload : f.payload = f'.payload := by
        have hrel := hfault.payload
        generalize f.payload = payload at hrel ⊢
        generalize f'.payload = payload' at hrel ⊢
        cases hrel with
        | none => rfl
        | some hrel => rw [hrel.1]
      obtain ⟨typeName, ancestry, message, payload⟩ := f
      obtain ⟨typeName', ancestry', message', payload'⟩ := f'
      obtain rfl : typeName = typeName' := hfault.typeName
      obtain rfl : ancestry = ancestry' := hfault.ancestry
      obtain rfl : message = message' := hfault.message
      obtain rfl : payload = payload' := hpayload
      rfl
  | _ => rfl

theorem values_live_iff {v : Value} :
    (live heap).Values v v ↔ ∀ h, v.heapRef? = some h → heap.contains h = true := by
  constructor
  · intro hv h href
    have hrel := hv.heapRef?
    rw [href] at hrel
    cases hrel with
    | some hrel => exact hrel.2
  · intro hlive
    cases v with
    | null => exact .null
    | int n => exact .int n
    | str text => exact .str text
    | object h => exact .object ⟨rfl, hlive h rfl⟩
    | list i items => exact .list i items
    | fault i f =>
        refine .fault i ⟨rfl, rfl, rfl, ?_⟩
        cases hpayload : f.payload with
        | none => exact .none
        | some h => exact .some ⟨rfl, hlive h hpayload⟩

theorem eq_of_forall₂_live {vs vs' : List Value} (h : List.Forall₂ (live heap).Values vs vs') : vs = vs' := by
  rw [← List.forall₂_eq_eq_eq]
  exact h.imp fun _ _ => Values.eq_of_live

theorem forall₂_live {vs : List Value} (h : ∀ v ∈ vs, ∀ h, v.heapRef? = some h → heap.contains h = true) :
    List.Forall₂ (live heap).Values vs vs :=
  List.forall₂_same.2 fun v hv => values_live_iff.2 (h v hv)

/-- After a collection the pairs that are left are those of the live objects. -/
theorem restrict_live {roots : List Value} (hk : Heap.Collected roots heap heap') :
    (live heap).restrict heap' heap' = live heap' := by
  ext h k
  · constructor
    · rintro ⟨⟨rfl, -⟩, hlive, -⟩
      exact ⟨rfl, hlive⟩
    · rintro ⟨rfl, hlive⟩
      exact ⟨⟨rfl, hk.contains_before hlive⟩, hlive, hlive⟩
  · rfl

theorem extend_live (hc : heap.Consistent) (type : Token) (typeName : String) (keys : List String)
    {hnew : ∀ k, ¬(live heap).rel (heap.allocate type typeName keys).2 k}
    {hnew' : ∀ h, ¬(live heap).rel h (heap.allocate type typeName keys).2} :
    (live heap).extend _ _ hnew hnew' = live (heap.allocate type typeName keys).1 := by
  ext h k
  · change (h = k ∧ _) ∨ (h = _ ∧ k = _) ↔ h = k ∧ _
    rw [Heap.contains_allocate type typeName keys hc.free.slotsEmpty]
    constructor
    · rintro (⟨rfl, hlive⟩ | ⟨rfl, rfl⟩)
      · exact ⟨rfl, Or.inr hlive⟩
      · exact ⟨rfl, Or.inl rfl⟩
    · rintro ⟨rfl, rfl | hlive⟩
      · exact Or.inr ⟨rfl, rfl⟩
      · exact Or.inl ⟨rfl, hlive⟩
  · rfl

end Renaming

/-! ### Heaps without dangling references -/

/-- The heap agrees with itself on all its live objects: it is consistent, live objects refer to live ones, and the
remembered set is complete for them. -/
def Heap.Grounded (heap : Heap) : Prop :=
  Renaming.Heaps 0 (.live heap) heap heap

namespace Heap

variable {heap : Heap}

theorem grounded_empty : Heap.empty.Grounded := by
  have hdead : ∀ {h k}, ¬(Renaming.live Heap.empty).rel h k := by
    rintro h k ⟨-, hlive⟩
    rw [contains, get?_empty] at hlive
    cases hlive
  exact ⟨⟨consistent_empty, consistent_empty⟩, fun hrel => absurd hrel hdead, fun hrel => absurd hrel hdead, rfl⟩

namespace Grounded

variable (hg : heap.Grounded)

include hg

theorem refers_live {h c : Handle} (href : heap.Refers h c) : heap.contains c = true := by
  obtain ⟨o, hget, hc⟩ := href
  exact (Renaming.Heaps.refers_live hg ⟨rfl, contains_of_get? hget⟩).1 c ⟨o, hget, hc⟩

theorem store {h : Handle} (key : String) {v : Value} (hlive : heap.contains h = true)
    (hv : (Renaming.live heap).Values v v) : (heap.store h key v).Grounded := by
  unfold Grounded
  rw [Renaming.live_congr (contains_store h key v)]
  exact Renaming.Heaps.store hg key ⟨rfl, hlive⟩ hv

theorem allocate (type : Token) (typeName : String) (keys : List String) :
    (heap.allocate type typeName keys).1.Grounded := by
  obtain ⟨hnew, hnew', hheaps⟩ := Renaming.Heaps.allocate hg type typeName keys
  rw [Renaming.extend_live hg.consistent.1] at hheaps
  exact hheaps

theorem collected {roots : List Value} {heap' : Heap} (hk : Collected roots heap heap') : heap'.Grounded := by
  have hheaps := Renaming.Heaps.collected hg hk hk
  rw [Renaming.restrict_live hk] at hheaps
  exact hheaps

theorem keeps {roots : List Value} {heap' : Heap} (hk : Collected roots heap heap') :
    (Renaming.live heap).Keeps (.live heap') roots roots := by
  have hkeeps := Renaming.Heaps.keeps_restrict hg hk hk
  rw [Renaming.restrict_live hk] at hkeeps
  exact hkeeps

end Grounded
end Heap

/-- The coupling of a run with itself, in which every live object is paired with itself. -/
def Coupling.diagonal (p : Program) (config : Config) : Coupling p config config where
  Heaps ρ heap heap' := heap = heap' ∧ ρ = .live heap ∧ heap.Grounded
  Memos := Eq
  shift := 0
  maxCallDepth := rfl
  verifyBodies := rfl
  object := by
    rintro ρ heap heap' h k ⟨rfl, rfl, hg⟩ hrel
    exact Renaming.Heaps.object hg hrel
  store := by
    rintro ρ heap heap' h k v v' key ⟨rfl, rfl, hg⟩ ⟨rfl, hlive⟩ hv
    obtain rfl := hv.eq_of_live
    exact ⟨rfl, (Renaming.live_congr (Heap.contains_store h key v)).symm, hg.store key hlive hv⟩
  allocate := by
    rintro ρ heap heap' type typeName keys ⟨rfl, rfl, hg⟩
    have hcontains : ∀ h, (heap.allocate type typeName keys).1.contains h = true ↔ _ :=
      Heap.contains_allocate type typeName keys hg.consistent.1.free.slotsEmpty
    refine ⟨.live (heap.allocate type typeName keys).1, rfl, ?_, ⟨rfl, ?_⟩, rfl, rfl, hg.allocate type typeName keys⟩
    · rintro h k ⟨rfl, hlive⟩
      exact ⟨rfl, (hcontains h).2 (Or.inr hlive)⟩
    · exact (hcontains _).2 (Or.inl rfl)
  atReturn := by
    rintro ρ heap heap' roots roots' ⟨rfl, rfl, hg⟩ hroots
    obtain rfl := Renaming.eq_of_forall₂_live hroots
    have hk := hg.consistent.1.collected_atReturn config roots
    exact ⟨.live (heap.atReturn config roots), rfl, hg.keeps hk, rfl, rfl, hg.collected hk⟩
  resolve _ _ heq := heq ▸ ⟨rfl, rfl⟩

/-! ### Machines without dangling references -/

/-- Every reference in the calls in flight and in the fields of live objects is live. -/
structure Machine.Closed (m : Machine) : Prop where
  frames : ∀ a ∈ m.activations, ∀ v ∈ a.frame.roots, ∀ h, v.heapRef? = some h → m.heap.contains h = true
  fields : ∀ h o, m.heap.get? h = some o → ∀ entry ∈ o.fields, ∀ c, entry.2.heapRef? = some c →
    m.heap.contains c = true

/-- The machine is in lockstep with itself on its live objects. -/
def Machine.Grounded (p : Program) (config : Config) (m : Machine) : Prop :=
  (Coupling.diagonal p config).Machines (.live m.heap) m m

namespace Machine

variable {p : Program} {config : Config} {m : Machine}

theorem grounded_of_machines {ρ : Renaming} (hm : (Coupling.diagonal p config).Machines ρ m m) :
    m.Grounded p config := by
  obtain ⟨-, rfl, -⟩ := hm.heaps
  exact hm

namespace Grounded

variable (hm : m.Grounded p config)

include hm

theorem closed : m.Closed := by
  refine ⟨fun a ha v hv => ?_, fun h o hget entry hentry c hc => ?_⟩
  · exact Renaming.values_live_iff.1 (List.forall₂_same.1 hm.roots v (mem_roots ha hv))
  · obtain ⟨-, -, hg⟩ := hm.heaps
    exact hg.refers_live ⟨o, hget, List.mem_filterMap.2 ⟨_, List.mem_map.2 ⟨entry, hentry, rfl⟩, hc⟩⟩

theorem step {m' : Machine} (hstep : m.step p config = .running m') : m'.Grounded p config := by
  have houtcomes := Coupling.step hm
  rw [hstep] at houtcomes
  cases houtcomes with
  | running hm' => exact grounded_of_machines hm'

theorem step_failed {m' : Machine} {e : Error} (hstep : m.step p config = .failed m' e) (stale : Handle) :
    e ≠ .danglingReference stale := by
  have houtcomes := Coupling.step hm
  rw [hstep] at houtcomes
  cases houtcomes with
  | failed _ he => exact he.not_dangling stale

theorem enter {m' : Machine} {method : Token} {args : List Value} {use : ResultUse}
    (hargs : ∀ v ∈ args, ∀ h, v.heapRef? = some h → m.heap.contains h = true)
    (henter : m.enter p config method args use = .ok m') : m'.Grounded p config := by
  have hagree := Coupling.enter hm method use (Renaming.forall₂_live hargs)
  rw [henter] at hagree
  cases hagree with
  | ok hm' => exact grounded_of_machines hm'

theorem invoke {fuel : Nat} {m' : Machine} {method : Token} {args : List Value} {result : Except Error (Option Value)}
    (hargs : ∀ v ∈ args, ∀ h, v.heapRef? = some h → m.heap.contains h = true)
    (hinvoke : m.invoke p config fuel method args = some (m', result)) :
    m'.Grounded p config ∧ ∀ stale, result ≠ .error (.danglingReference stale) := by
  have hruns := Coupling.invoke hm fuel method (Renaming.forall₂_live hargs)
  rw [hinvoke] at hruns
  cases hruns with
  | some hends =>
      obtain ⟨ρ, hm', hresult⟩ := hends
      refine ⟨grounded_of_machines hm', ?_⟩
      rintro stale rfl
      cases hresult with
      | error he => exact he.not_dangling stale rfl

theorem entryArguments (args : List String) : (m.entryArguments p args).1.Grounded p config ∧
    ∀ v ∈ (m.entryArguments p args).2, ∀ h, v.heapRef? = some h →
      (m.entryArguments p args).1.heap.contains h = true := by
  obtain ⟨hm', hargs⟩ := Coupling.entryArguments hm args
  have hg := grounded_of_machines hm'
  obtain ⟨-, hlive, -⟩ := hm'.heaps
  rw [hlive] at hargs
  exact ⟨hg, fun v hv => Renaming.values_live_iff.1 (List.forall₂_same.1 hargs v hv)⟩

theorem collectMajor (order : Traversal) : (m.collectMajor order).Grounded p config := by
  obtain ⟨-, -, hg⟩ := hm.heaps
  have hk := hg.consistent.1.collected_collectMajorBy order m.roots
  refine ⟨⟨rfl, rfl, hg.collected hk⟩, ?_, rfl, rfl, rfl, rfl⟩
  exact (hg.keeps hk).activations hm.activations (fun _ ha _ hv => mem_roots ha hv)
    (fun _ ha _ hv => mem_roots ha hv)

end Grounded
end Machine

/-! ### Sessions -/

/-- A machine between the runs of a session: a host runs the entry point, calls methods with arguments that hold live
handles only, and collects both generations. -/
inductive Session (p : Program) (config : Config) : Machine → Prop where
  | fresh (console : Console) : Session p config { console }
  | collectMajor (order : Traversal) {m : Machine} (h : Session p config m) : Session p config (m.collectMajor order)
  | runEntry {m m' : Machine} {fuel : Nat} {args : List String} {result : Except Error Int32} (h : Session p config m)
      (hrun : m.runEntry p config fuel args = some (m', result)) : Session p config m'
  | invoke {m m' : Machine} {fuel : Nat} {method : Token} {args : List Value} {result : Except Error (Option Value)}
      (h : Session p config m) (hargs : ∀ v ∈ args, ∀ h, v.heapRef? = some h → m.heap.contains h = true)
      (hrun : m.invoke p config fuel method args = some (m', result)) : Session p config m'

/-- A machine at an instruction boundary of a run of a session, whether or not the run ever ends. -/
inductive InFlight (p : Program) (config : Config) : Machine → Prop where
  | entry {m m' : Machine} {args : List String} (h : Session p config m)
      (henter : (m.entryArguments p args).1.enter p config p.entryPoint (m.entryArguments p args).2 .host = .ok m') :
      InFlight p config m'
  | invoke {m m' : Machine} {method : Token} {args : List Value} (h : Session p config m)
      (hargs : ∀ v ∈ args, ∀ h, v.heapRef? = some h → m.heap.contains h = true)
      (henter : m.enter p config method args .host = .ok m') : InFlight p config m'
  | step {m m' : Machine} (h : InFlight p config m) (hstep : m.step p config = .running m') : InFlight p config m'

variable {p : Program} {config : Config} {m : Machine}

theorem Machine.Grounded.runEntry {fuel : Nat} {m' : Machine} {args : List String} {result : Except Error Int32}
    (hm : m.Grounded p config) (hrun : m.runEntry p config fuel args = some (m', result)) :
    m'.Grounded p config ∧ ∀ stale, result ≠ .error (.danglingReference stale) := by
  have hruns := Coupling.runEntry hm fuel args
  rw [hrun] at hruns
  cases hruns with
  | some hends =>
      obtain ⟨ρ, hm', hresult⟩ := hends
      refine ⟨Machine.grounded_of_machines hm', ?_⟩
      rintro stale rfl
      cases hresult with
      | error he => exact he.not_dangling stale rfl

/-- What a session keeps between its runs. -/
theorem Session.grounded (h : Session p config m) : m.Grounded p config := by
  induction h with
  | fresh console => exact ⟨⟨rfl, rfl, Heap.grounded_empty⟩, .nil, rfl, rfl, rfl, rfl⟩
  | collectMajor order _ ih => exact ih.collectMajor order
  | runEntry _ hrun ih => exact (ih.runEntry hrun).1
  | invoke _ hargs hrun ih => exact (ih.invoke hargs hrun).1

/-- What a run keeps from one instruction to the next. -/
theorem InFlight.grounded (h : InFlight p config m) : m.Grounded p config := by
  induction h with
  | @entry m m' args hsession henter =>
      obtain ⟨hm, hargs⟩ := hsession.grounded.entryArguments args
      exact hm.enter hargs henter
  | invoke hsession hargs henter => exact hsession.grounded.enter hargs henter
  | step _ hstep ih => exact ih.step hstep

/-- **No reference dangles.** At every instruction boundary of every run of a session all references are live, the next
step does not fail on a stale handle, and no run ends in such an error. -/
theorem no_dangling_reference (p : Program) (config : Config) :
    (∀ m, InFlight p config m → m.Closed ∧
      ∀ m' stale, m.step p config ≠ .failed m' (.danglingReference stale)) ∧
    (∀ m, Session p config m → ∀ fuel args m' stale,
      m.runEntry p config fuel args ≠ some (m', .error (.danglingReference stale))) ∧
    ∀ m, Session p config m → ∀ fuel method args m' stale,
      (∀ v ∈ args, ∀ h, v.heapRef? = some h → m.heap.contains h = true) →
      m.invoke p config fuel method args ≠ some (m', .error (.danglingReference stale)) := by
  refine ⟨fun m h => ⟨h.grounded.closed, ?_⟩, ?_, ?_⟩
  · intro m' stale hstep
    exact h.grounded.step_failed hstep stale rfl
  · intro m h fuel args m' stale hrun
    exact (h.grounded.runEntry hrun).2 stale rfl
  · intro m h fuel method args m' stale hargs hrun
    exact (h.grounded.invoke hargs hrun).2 stale rfl

/-- A program whose entry point makes an object that refers to itself. -/
def ringImage : Image where
  entryPoint := .ofRow .methodDef 2
  types := [{ name := "Node" }]
  fields := [{ owner := .ofRow .typeDef 1, name := "next" }]
  methods :=
    [{ owner := .ofRow .typeDef 1, name := ".ctor", signature := { isInstance := true, returnsVoid := true },
       code := [0x2A] },
     { owner := .ofRow .typeDef 1, name := "Main", locals := 1,
       code := [0x73, 0x01, 0x00, 0x00, 0x06, 0x0A, 0x06, 0x06, 0x7D, 0x01, 0x00, 0x00, 0x04, 0x1D, 0x2A] }]

def ringProgram : Program where
  image := ringImage
  index := (Index.build ringImage).toOption.getD {}
  entryPoint := .ofRow .methodDef 2
  entrySignature := {}

/-- The machine at the first instruction of the entry point. -/
def ringStart : Machine :=
  (Machine.enter ringProgram {} {} (.ofRow .methodDef 2) [] .host).toOption.getD {}

/-- The machine that a step leaves. -/
def Outcome.machine : Outcome → Machine
  | .running m | .returned m _ | .failed m _ => m

/-- In the constructor of the object, it is an argument and on the stack of the caller, and both references are live. -/
theorem no_dangling_reference_ring : Program.load ringImage = .ok ringProgram ∧ ∃ m, InFlight ringProgram {} m ∧
    m.roots = [.object ⟨0, 0⟩, .null, .object ⟨0, 0⟩] ∧ m.Closed := by
  have henter : Machine.enter ringProgram {} {} (.ofRow .methodDef 2) [] .host = .ok ringStart := by cbv
  have hstep : ringStart.step ringProgram {} = .running (ringStart.step ringProgram {}).machine := by cbv
  have called := (InFlight.invoke (.fresh {}) (by simp) henter).step hstep
  exact ⟨by decide_cbv, _, called, by cbv, ((no_dangling_reference ringProgram {}).1 _ called).1⟩

end ManagedCode
