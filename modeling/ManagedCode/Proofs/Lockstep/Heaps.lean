import ManagedCode.Proofs.Heap.Collection
import ManagedCode.Proofs.Lockstep.Steps

/-! Two heaps whose paired objects are the same up to the renaming. Only paired objects have to agree: each heap may
hold more, and neither the slots nor the generations of paired objects need be alike. Stores and new objects on both
heaps keep them so, and so does a collection of one or both with related roots, after which the pairs are those of
which both objects are left. Nothing is said of the number of objects made: a stale handle is never paired, and a
paired object refers to paired ones only. -/

namespace ManagedCode
namespace Renaming

/-- Consistent heaps in which paired objects agree, and old ones among them that refer to young ones are remembered.
The second heap has made `ahead` objects more. -/
structure Heaps (ahead : Nat) (ρ : Renaming) (heap heap' : Heap) : Prop where
  consistent : heap.Consistent ∧ heap'.Consistent
  object : ∀ {h k}, ρ.rel h k → ∃ o o', heap.get? h = some o ∧ heap'.get? k = some o' ∧ ρ.Objects o o'
  remembers : ∀ {h k}, ρ.rel h k → heap.Remembers h ∧ heap'.Remembers k
  allocated : heap'.stats.allocated = heap.stats.allocated + ahead

variable {ρ σ : Renaming}

/-! ### References of paired objects -/

namespace Objects

variable {o o' : Object}

theorem values (h : ρ.Objects o o') :
    List.Forall₂ ρ.Values (o.fields.map Prod.snd) (o'.fields.map Prod.snd) := by
  rw [List.forall₂_map_left_iff, List.forall₂_map_right_iff]
  exact h.fields.imp fun _ _ he => he.2

theorem refs (h : ρ.Objects o o') : List.Forall₂ ρ.rel o.refs o'.refs := by
  exact List.rel_filterMap (fun _ _ hv => hv.heapRef?) h.values

/-- Objects stay related if the objects they refer to do. -/
theorem transfer (h : ρ.Objects o o') (hshift : σ.shift = ρ.shift)
    (hrel : ∀ c d, c ∈ o.refs → d ∈ o'.refs → ρ.rel c d → σ.rel c d) : σ.Objects o o' := by
  have hmem : ∀ {x : Object} {entry : String × Value} {c : Handle}, entry ∈ x.fields → entry.2.heapRef? = some c →
      c ∈ x.refs := fun hentry hc => List.mem_filterMap.2 ⟨_, List.mem_map.2 ⟨_, hentry, rfl⟩, hc⟩
  refine ⟨h.type, h.typeName, ?_⟩
  have hfields := h.fields
  rw [List.forall₂_iff_zip] at hfields ⊢
  refine ⟨hfields.1, fun {e e'} hzip => ?_⟩
  obtain ⟨hkey, hv⟩ := hfields.2 hzip
  obtain ⟨he, he'⟩ := List.of_mem_zip hzip
  exact ⟨hkey, hv.transfer hshift fun c d hc hd => hrel c d (hmem he hc) (hmem he' hd)⟩

end Objects

namespace Heaps

variable {ahead : Nat} {heap heap' : Heap} (hp : Heaps ahead ρ heap heap')

include hp

theorem live {h k : Handle} (hrel : ρ.rel h k) : heap.contains h = true ∧ heap'.contains k = true := by
  obtain ⟨o, o', hget, hget', -⟩ := hp.object hrel
  exact ⟨Heap.contains_of_get? hget, Heap.contains_of_get? hget'⟩

/-- A paired object refers to live objects only. -/
theorem refers_live {h k : Handle} (hrel : ρ.rel h k) :
    (∀ c, heap.Refers h c → heap.contains c = true) ∧ ∀ c, heap'.Refers k c → heap'.contains c = true := by
  obtain ⟨o, o', hget, hget', ho⟩ := hp.object hrel
  have hrefs := exists_of_forall₂ ho.refs
  refine ⟨?_, ?_⟩
  · rintro c ⟨x, hx, hc⟩
    obtain rfl : o = x := Option.some.inj (hget.symm.trans hx)
    obtain ⟨d, -, hcd⟩ := hrefs.1 c hc
    exact (hp.live hcd).1
  · rintro d ⟨x, hx, hd⟩
    obtain rfl : o' = x := Option.some.inj (hget'.symm.trans hx)
    obtain ⟨c, -, hcd⟩ := hrefs.2 d hd
    exact (hp.live hcd).2

/-! ### Stores -/

theorem store {h k : Handle} (key : String) {v v' : Value} (hrel : ρ.rel h k) (hv : ρ.Values v v') :
    Heaps ahead ρ (heap.store h key v) (heap'.store k key v') where
  consistent := ⟨hp.consistent.1.store h key v, hp.consistent.2.store k key v'⟩
  object := by
    intro h₁ k₁ hrel₁
    obtain ⟨o, o', hget, hget', ho⟩ := hp.object hrel₁
    rw [Heap.get?_store, Heap.get?_store, hget, hget']
    by_cases heq : h₁ = h
    · rw [if_pos heq, if_pos ((ρ.oneToOne hrel₁ hrel).1 heq)]
      exact ⟨_, _, rfl, rfl, ho.setField key hv⟩
    · rw [if_neg heq, if_neg fun heq' => heq ((ρ.oneToOne hrel₁ hrel).2 heq')]
      exact ⟨o, o', rfl, rfl, ho⟩
  remembers hrel₁ := ⟨(hp.remembers hrel₁).1.store h key v, (hp.remembers hrel₁).2.store k key v'⟩
  allocated := by
    rw [Heap.store_stats, Heap.store_stats]
    exact hp.allocated

end Heaps

/-! ### New objects -/

/-- The renaming that pairs two more handles, of which neither is paired. -/
def extend (ρ : Renaming) (new new' : Handle) (hnew : ∀ k, ¬ρ.rel new k) (hnew' : ∀ h, ¬ρ.rel h new') : Renaming where
  rel h k := ρ.rel h k ∨ h = new ∧ k = new'
  oneToOne := by
    rintro h h' k k' (hrel | ⟨rfl, rfl⟩) (hrel' | ⟨rfl, rfl⟩)
    · exact ρ.oneToOne hrel hrel'
    · exact ⟨fun e => absurd (e ▸ hrel) (hnew k), fun e => absurd (e ▸ hrel) (hnew' h)⟩
    · exact ⟨fun e => absurd (e ▸ hrel') (hnew k'), fun e => absurd (e ▸ hrel') (hnew' h')⟩
    · exact ⟨fun _ => rfl, fun _ => rfl⟩
  shift := ρ.shift

theorem objects_blank (type : Token) (typeName : String) (keys : List String) :
    σ.Objects (Heap.blankObject type typeName keys) (Heap.blankObject type typeName keys) := by
  refine ⟨rfl, rfl, List.forall₂_same.2 fun entry hentry => ⟨rfl, ?_⟩⟩
  obtain ⟨key, -, rfl⟩ := List.mem_map.1 hentry
  exact .null

theorem Heaps.allocate {ahead : Nat} {heap heap' : Heap} (hp : Heaps ahead ρ heap heap') (type : Token)
    (typeName : String) (keys : List String) : ∃ hnew hnew', Heaps ahead
      (ρ.extend (heap.allocate type typeName keys).2 (heap'.allocate type typeName keys).2 hnew hnew')
      (heap.allocate type typeName keys).1 (heap'.allocate type typeName keys).1 := by
  have hfree := hp.consistent.1.free.slotsEmpty
  have hfree' := hp.consistent.2.free.slotsEmpty
  have hdead := heap.not_contains_allocated type typeName keys hfree
  have hdead' := heap'.not_contains_allocated type typeName keys hfree'
  have hne : ∀ {h k}, ρ.rel h k → h ≠ (heap.allocate type typeName keys).2 := by
    rintro h k hrel rfl
    rw [(hp.live hrel).1] at hdead
    cases hdead
  have hne' : ∀ {h k}, ρ.rel h k → k ≠ (heap'.allocate type typeName keys).2 := by
    rintro h k hrel rfl
    rw [(hp.live hrel).2] at hdead'
    cases hdead'
  refine ⟨fun k hrel => hne hrel rfl, fun h hrel => hne' hrel rfl, ?_⟩
  refine ⟨⟨hp.consistent.1.allocate type typeName keys, hp.consistent.2.allocate type typeName keys⟩, ?_, ?_, ?_⟩
  · rintro h k (hrel | ⟨rfl, rfl⟩)
    · obtain ⟨o, o', hget, hget', ho⟩ := hp.object hrel
      rw [Heap.get?_allocate heap type typeName keys hfree, Heap.get?_allocate heap' type typeName keys hfree',
        if_neg (hne hrel), if_neg (hne' hrel)]
      exact ⟨o, o', hget, hget', ho.transfer rfl fun _ _ _ _ hcd => Or.inl hcd⟩
    · rw [Heap.get?_allocate heap type typeName keys hfree, Heap.get?_allocate heap' type typeName keys hfree',
        if_pos rfl, if_pos rfl]
      exact ⟨_, _, rfl, rfl, objects_blank type typeName keys⟩
  · rintro h k (hrel | ⟨rfl, rfl⟩)
    · have hlive := hp.refers_live hrel
      refine ⟨(hp.remembers hrel).1.allocate type typeName keys hfree fun href => ?_,
        (hp.remembers hrel).2.allocate type typeName keys hfree' fun href => ?_⟩
      · rw [hlive.1 _ href] at hdead
        cases hdead
      · rw [hlive.2 _ href] at hdead'
        cases hdead'
    · refine ⟨fun c hold => ?_, fun c hold => ?_⟩
      · rw [Heap.generation?_allocate type typeName keys hfree, if_pos rfl] at hold
        cases hold
      · rw [Heap.generation?_allocate type typeName keys hfree', if_pos rfl] at hold
        cases hold
  · rw [Heap.allocate_stats, Heap.allocate_stats]
    have hallocated := hp.allocated
    dsimp only
    omega

/-! ### Collections -/

/-- The pairs of which both objects are in the given heaps. -/
def restrict (ρ : Renaming) (heap heap' : Heap) : Renaming where
  rel h k := ρ.rel h k ∧ heap.contains h = true ∧ heap'.contains k = true
  oneToOne hrel hrel' := ρ.oneToOne hrel.1 hrel'.1
  shift := ρ.shift

section Collections

variable {ahead : Nat} {heap heap' heap₁ heap₁' : Heap} {roots roots' : List Value}

/-- Collections with related roots keep the roots related. -/
theorem Heaps.keeps_restrict (hp : Heaps ahead ρ heap heap') (hk : Heap.Collected roots heap heap₁)
    (hk' : Heap.Collected roots' heap' heap₁') : ρ.Keeps (ρ.restrict heap₁ heap₁') roots roots' := by
  intro v hmem v' hmem' hv
  refine hv.transfer rfl fun h k hh hk₁ hrel => ⟨hrel, ?_, ?_⟩
  · exact hk.root v hmem h hh (hp.live hrel).1
  · exact hk'.root v' hmem' k hk₁ (hp.live hrel).2

/-- Collections keep what is left of the pairs related. -/
theorem Heaps.collected (hp : Heaps ahead ρ heap heap') (hk : Heap.Collected roots heap heap₁)
    (hk' : Heap.Collected roots' heap' heap₁') : Heaps ahead (ρ.restrict heap₁ heap₁') heap₁ heap₁' where
  consistent := ⟨hk.consistent, hk'.consistent⟩
  object := by
    rintro h k ⟨hrel, hlive, hlive'⟩
    obtain ⟨o₁, hget₁⟩ := Heap.contains_iff.1 hlive
    obtain ⟨o₁', hget₁'⟩ := Heap.contains_iff.1 hlive'
    obtain ⟨o, hget, heq⟩ := hk.object h o₁ hget₁
    obtain ⟨o', hget', heq'⟩ := hk'.object k o₁' hget₁'
    obtain ⟨x, x', hx, hx', ho⟩ := hp.object hrel
    obtain rfl : o = x := Option.some.inj (hget.symm.trans hx)
    obtain rfl : o' = x' := Option.some.inj (hget'.symm.trans hx')
    have hremembers := hp.remembers hrel
    refine ⟨o₁, o₁', hget₁, hget₁', ?_⟩
    rw [heq, heq']
    -- What a kept object refers to is kept: this is where the remembered set is needed.
    have ho₁ : (ρ.restrict heap₁ heap₁').Objects o o' := by
      refine ho.transfer rfl fun c d hc hd hcd => ⟨hcd, ?_, ?_⟩
      · exact hk.reference h c hlive hremembers.1 ⟨o, hget, hc⟩ (hp.live hcd).1
      · exact hk'.reference k d hlive' hremembers.2 ⟨o', hget', hd⟩ (hp.live hcd).2
    exact ⟨ho₁.type, ho₁.typeName, ho₁.fields⟩
  remembers := by
    rintro h k ⟨hrel, -, -⟩
    exact ⟨hk.remembers h (hp.remembers hrel).1, hk'.remembers k (hp.remembers hrel).2⟩
  allocated := by
    rw [hk.allocated, hk'.allocated]
    exact hp.allocated

end Collections
end Renaming

/-- Not to collect is the least collection. -/
theorem Heap.Consistent.collected_self {heap : Heap} (hc : heap.Consistent) (roots : List Value) :
    Heap.Collected roots heap heap where
  consistent := hc
  object _ o' hget := ⟨o', hget, rfl⟩
  root _ _ _ _ hlive := hlive
  reference _ _ _ _ _ hlive := hlive
  remembers _ hr := hr
  allocated := rfl

theorem Heap.Consistent.collected_atReturn {heap : Heap} (hc : heap.Consistent) (config : Config)
    (roots : List Value) : Heap.Collected roots heap (heap.atReturn config roots) := by
  unfold Heap.atReturn
  split
  · exact hc.collected_collectMinorBy (config.visiting heap) roots
  · exact hc.collected_self roots

/-- The coupling of two runs whose paired objects agree. The second run may have made `ahead` more objects and `shift`
more identities before, and the memos may be related in any way that resolves calls alike. -/
def Coupling.paired {p : Program} {config config' : Config} (hdepth : config.maxCallDepth = config'.maxCallDepth)
    (hverify : config.verifyBodies = config'.verifyBodies) (ahead shift : Nat) (Memos : Dispatch → Dispatch → Prop)
    (hresolve : ∀ {d d' site target} (type : Token), p.virtualTarget site = .ok (some target) → Memos d d' →
      (p.resolveIn d site type target.name target.signature.paramCount).2 =
          (p.resolveIn d' site type target.name target.signature.paramCount).2 ∧
        Memos (p.resolveIn d site type target.name target.signature.paramCount).1
          (p.resolveIn d' site type target.name target.signature.paramCount).1) : Coupling p config config' where
  Heaps := Renaming.Heaps ahead
  Memos := Memos
  shift := shift
  maxCallDepth := hdepth
  verifyBodies := hverify
  object hp hrel := hp.object hrel
  store key hp hrel hv := hp.store key hrel hv
  allocate type typeName keys hp := by
    obtain ⟨hnew, hnew', hheaps⟩ := hp.allocate type typeName keys
    exact ⟨Renaming.extend _ _ _ hnew hnew', rfl, fun _ _ hrel => Or.inl hrel, Or.inr ⟨rfl, rfl⟩, hheaps⟩
  atReturn {ρ heap heap' roots roots'} hp _ := by
    have hk := hp.consistent.1.collected_atReturn config roots
    have hk' := hp.consistent.2.collected_atReturn config' roots'
    exact ⟨ρ.restrict _ _, rfl, hp.keeps_restrict hk hk', hp.collected hk hk'⟩
  resolve := hresolve

/-- The renaming that pairs nothing. -/
def Renaming.nothing (shift : Nat) : Renaming where
  rel _ _ := False
  oneToOne h := h.elim
  shift := shift

end ManagedCode
