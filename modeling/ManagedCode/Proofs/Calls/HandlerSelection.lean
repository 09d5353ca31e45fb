import ManagedCode.Proofs.Calls.Unwinding

/-! Which region of a frame decides about a fault. The catching regions around the position of the fault are ordered by
the lengths of their ranges, and those of one length by their places in the list of regions. The first in this order
that does not decline the fault decides: it handles the fault, or puts another error in its place. What stands later in
the order, a type that cannot be resolved above all, makes no difference. Where the ranges are nested in each other, the
region that decides is the innermost of those that do not decline. A search that ends without a handler leaves the frame
and the machine as they were. -/

namespace ManagedCode

/-! ### Regions -/

namespace Region

/-- The range of the region contains the position. -/
def Encloses (r : Region) (offset : Nat) : Prop :=
  r.tryOffset.toNat ≤ offset ∧ offset < r.tryOffset.toNat + r.tryLength.toNat

instance (r : Region) (offset : Nat) : Decidable (r.Encloses offset) :=
  inferInstanceAs (Decidable (_ ∧ _))

theorem covers_iff {r : Region} {offset : Nat} : r.covers offset = true ↔ r.Encloses offset := by
  rw [covers, Bool.and_eq_true, decide_eq_true_eq, decide_eq_true_eq, Encloses]
  omega

/-- The region catches faults at the position. -/
def Guards (r : Region) (offset : Nat) : Prop :=
  r.kind = .catching ∧ r.Encloses offset

/-- The region does not leave the fault to the regions after it. -/
inductive Decides (p : Program) (fault : Fault) (r : Region) : Prop
  | untyped (htype : r.catchType = none)
  | nil {type : Token} (htype : r.catchType = some type) (hrow : type.row = 0)
  | unresolved {type : Token} (htype : r.catchType = some type) {e : Error}
      (hname : p.index.typeName p.image type = .error e)
  | named {type : Token} (htype : r.catchType = some type) {name : String}
      (hname : p.index.typeName p.image type = .ok name) (htaken : name = "System.Object" ∨ name ∈ fault.ancestry)

/-- The range of a region lies in that of another. -/
def Within (r s : Region) : Prop :=
  s.tryOffset.toNat ≤ r.tryOffset.toNat ∧
    r.tryOffset.toNat + r.tryLength.toNat ≤ s.tryOffset.toNat + s.tryLength.toNat

/-- The ranges of two regions have no position in common. -/
def Apart (r s : Region) : Prop :=
  r.tryOffset.toNat + r.tryLength.toNat ≤ s.tryOffset.toNat ∨ s.tryOffset.toNat + s.tryLength.toNat ≤ r.tryOffset.toNat

variable {p : Program} {fault : Fault} {r : Region}

theorem Declines.not_decides (h : r.Declines p fault) : ¬r.Decides p fault := by
  intro hdecides
  cases hdecides with
  | untyped htype => exact h.1 (Or.inl htype)
  | nil htype hrow => exact h.1 (Or.inr ⟨_, htype, Or.inl hrow⟩)
  | @unresolved type htype e hname =>
      by_cases hrow : type.row = 0
      · exact h.1 (Or.inr ⟨type, htype, Or.inl hrow⟩)
      · exact h.2 e ⟨type, htype, hrow, hname⟩
  | named htype hname htaken =>
      refine h.1 (Or.inr ⟨_, htype, Or.inr ⟨_, hname, ?_⟩⟩)
      rw [Fault.isInstanceOf, Bool.or_eq_true, beq_iff_eq, List.contains_iff_mem]
      exact htaken

theorem Accepts.decides (h : r.Accepts p fault) : r.Decides p fault := by
  rcases h with hnone | ⟨type, htype, hrow | ⟨name, hname, hinstance⟩⟩
  · exact .untyped hnone
  · exact .nil htype hrow
  · refine .named htype hname ?_
    rwa [Fault.isInstanceOf, Bool.or_eq_true, beq_iff_eq, List.contains_iff_mem] at hinstance

theorem decides_iff : r.Decides p fault ↔ ¬r.Declines p fault := by
  refine ⟨fun hdecides hdeclines => hdeclines.not_decides hdecides, fun h => ?_⟩
  by_contra hnot
  exact h ⟨fun haccepts => hnot haccepts.decides,
    fun e hunresolved => let ⟨_, htype, _, hname⟩ := hunresolved; hnot (.unresolved htype hname)⟩

/-- A region that decides has a type that cannot be resolved, or takes the fault. -/
theorem Decides.accepts (h : r.Decides p fault) (hresolved : ∀ e, ¬r.Unresolved p e) : r.Accepts p fault := by
  by_contra hnot
  exact decides_iff.1 h ⟨hnot, hresolved⟩

theorem Unresolved.metadata {e : Error} (h : r.Unresolved p e) : ∃ detail, e = .metadata detail := by
  obtain ⟨type, -, -, hname⟩ := h
  have hmetadata := p.index.typeName_metadata p.image type e hname
  cases e with
  | metadata detail => exact ⟨detail, rfl⟩
  | _ => cases hmetadata

end Region

/-! ### The region that decides -/

namespace Frame

variable {p : Program} {fault : Fault} {f : Frame} {offset : Nat} {r : Region}

theorem length_trans (r s t : Region) (hrs : decide (r.tryLength ≤ s.tryLength) = true)
    (hst : decide (s.tryLength ≤ t.tryLength) = true) : decide (r.tryLength ≤ t.tryLength) = true := by
  simp only [decide_eq_true_eq, UInt32.le_iff_toNat_le] at *
  omega

theorem length_total (r s : Region) :
    (decide (r.tryLength ≤ s.tryLength) || decide (s.tryLength ≤ r.tryLength)) = true := by
  simp only [Bool.or_eq_true, decide_eq_true_eq, UInt32.le_iff_toNat_le]
  omega

theorem candidates_pairwise (f : Frame) (offset : Nat) :
    (f.candidates offset).Pairwise fun r s => r.tryLength.toNat ≤ s.tryLength.toNat := by
  exact (List.pairwise_mergeSort length_trans length_total _).imp fun hrs =>
    UInt32.le_iff_toNat_le.1 (of_decide_eq_true hrs)

/-- The regions of one length are tried in the order in which they are declared. -/
theorem candidates_filter (f : Frame) (offset : Nat) (length : UInt32) :
    (f.candidates offset).filter (fun r => r.tryLength == length) =
      f.regions.filter fun r => (r.kind == .catching && r.covers offset) && r.tryLength == length := by
  have hequal : ((f.regions.filter fun r => r.kind == .catching && r.covers offset).filter fun r =>
      r.tryLength == length).Pairwise fun r s => decide (r.tryLength ≤ s.tryLength) = true := by
    refine List.pairwise_filter.2 (List.pairwise_of_forall fun r s hr hs => ?_)
    rw [beq_iff_eq] at hr hs
    exact decide_eq_true (UInt32.le_iff_toNat_le.2 (by rw [hr, hs]))
  have hsublist := List.sublist_mergeSort length_trans length_total hequal List.filter_sublist
  have hfiltered := hsublist.filter fun r => r.tryLength == length
  rw [List.filter_filter] at hfiltered
  simp only [Bool.and_self] at hfiltered
  have hlength := (List.mergeSort_perm (f.regions.filter fun r => r.kind == .catching && r.covers offset)
    fun r s : Region => decide (r.tryLength ≤ s.tryLength)).filter fun r => r.tryLength == length
  rw [candidates, ← hfiltered.eq_of_length hlength.length_eq.symm, List.filter_filter]
  simp only [Bool.and_comm]

/-- The region with the number `k` is the first that decides, in the order of the lengths and then of the numbers, among
the regions that catch at the position. -/
structure DecidesAt (p : Program) (f : Frame) (offset : Nat) (fault : Fault) (k : Nat) (r : Region) : Prop where
  declared : f.regions[k]? = some r
  guards : r.Guards offset
  decides : r.Decides p fault
  first : ∀ (j : Nat) (s : Region), f.regions[j]? = some s → s.Guards offset → s.Decides p fault →
    r.tryLength.toNat < s.tryLength.toNat ∨ r.tryLength = s.tryLength ∧ k ≤ j

theorem tries_iff : f.Tries offset r ↔ r ∈ f.regions ∧ r.Guards offset := by
  constructor
  · intro h
    exact ⟨h.mem, h.kind, Region.covers_iff.1 h.covers⟩
  · rintro ⟨hmem, hkind, hencloses⟩
    exact ⟨hmem, hkind, Region.covers_iff.2 hencloses⟩

theorem DecidesAt.mem {k : Nat} (h : f.DecidesAt p offset fault k r) : r ∈ f.regions :=
  List.mem_iff_getElem?.2 ⟨k, h.declared⟩

theorem DecidesAt.unique {k k' : Nat} {r' : Region} (h : f.DecidesAt p offset fault k r)
    (h' : f.DecidesAt p offset fault k' r') : k = k' ∧ r = r' := by
  have hk : k = k' := by
    have hle := h.first k' r' h'.declared h'.guards h'.decides
    have hge := h'.first k r h.declared h.guards h.decides
    simp only [← UInt32.toNat_inj] at hle hge
    omega
  subst hk
  exact ⟨rfl, Option.some.inj (h.declared.symm.trans h'.declared)⟩

/-- The region that the search meets and that does not decline is the one that decides. -/
theorem Meets.decidesAt (h : f.Meets p offset fault r) (hdecides : r.Decides p fault) :
    ∃ k, f.DecidesAt p offset fault k r := by
  classical
  obtain ⟨before, after, hlist, hbefore⟩ := h
  have hpassed : ∀ s ∈ before, ¬s.Decides p fault := fun s hs => (hbefore s hs).not_decides
  have hafter : ∀ s ∈ after, r.tryLength.toNat ≤ s.tryLength.toNat := by
    have hsorted := f.candidates_pairwise offset
    rw [hlist] at hsorted
    exact (List.pairwise_cons.1 (List.pairwise_append.1 hsorted).2.1).1
  have hfind : f.regions.find? (fun s => decide (s.Guards offset ∧ s.tryLength = r.tryLength ∧
      s.Decides p fault)) = some r := by
    have hamong : ((f.candidates offset).filter fun s => s.tryLength == r.tryLength).find? (fun s =>
        decide (s.Decides p fault)) = some r := by
      rw [List.find?_filter, List.find?_eq_some_iff_append]
      exact ⟨by simp [hdecides], before, after, hlist, fun s hs => by simp [hpassed s hs]⟩
    rw [candidates_filter, List.find?_filter] at hamong
    rw [← hamong]
    congr 1
    funext s
    simp [Region.Guards, ← Region.covers_iff, and_assoc]
  obtain ⟨hr, k, hk, hget, hfirst⟩ := List.find?_eq_some_iff_getElem.1 hfind
  obtain ⟨hguards, -, -⟩ := of_decide_eq_true hr
  refine ⟨k, List.getElem?_eq_some_iff.2 ⟨hk, hget⟩, hguards, hdecides, fun j s hj hs hsDecides => ?_⟩
  have hle : r.tryLength.toNat ≤ s.tryLength.toNat := by
    have hmem : s ∈ f.candidates offset := mem_candidates.2 (tries_iff.2 ⟨List.mem_iff_getElem?.2 ⟨j, hj⟩, hs⟩)
    rw [hlist] at hmem
    rcases List.mem_append.1 hmem with hfront | hback
    · exact absurd hsDecides (hpassed s hfront)
    · rcases List.mem_cons.1 hback with rfl | hback
      · exact Nat.le_refl _
      · exact hafter s hback
  rcases Nat.lt_or_eq_of_le hle with hlt | heq
  · exact Or.inl hlt
  · refine Or.inr ⟨UInt32.toNat_inj.1 heq, ?_⟩
    by_contra hlt
    obtain ⟨hj', hget'⟩ := List.getElem?_eq_some_iff.1 hj
    have hnot := hfirst j (Nat.lt_of_not_le hlt)
    rw [hget'] at hnot
    simp [hs, hsDecides, UInt32.toNat_inj.1 heq] at hnot

/-- If a region around the position does not decline, the search meets one that does not. -/
theorem exists_meets (hr : f.Tries offset r) (hdecides : r.Decides p fault) :
    ∃ s, f.Meets p offset fault s ∧ s.Decides p fault := by
  rcases declines_or_first p fault (f.candidates offset) with hall | ⟨before, s, after, hlist, hbefore, hs⟩
  · exact absurd hdecides (hall r (mem_candidates.2 hr)).not_decides
  · exact ⟨s, ⟨before, after, hlist, hbefore⟩, Region.decides_iff.2 hs⟩

theorem exists_decidesAt (hr : f.Tries offset r) (hdecides : r.Decides p fault) :
    ∃ k s, f.DecidesAt p offset fault k s := by
  obtain ⟨s, hmeets, hs⟩ := exists_meets hr hdecides
  obtain ⟨k, hk⟩ := hmeets.decidesAt hs
  exact ⟨k, s, hk⟩

theorem DecidesAt.meets {k : Nat} (h : f.DecidesAt p offset fault k r) : f.Meets p offset fault r := by
  obtain ⟨s, hmeets, hs⟩ := exists_meets (tries_iff.2 ⟨h.mem, h.guards⟩) h.decides
  obtain ⟨k', hk'⟩ := hmeets.decidesAt hs
  rw [(h.unique hk').2]
  exact hmeets

theorem DecidesAt.handles {k index : Nat} (h : f.DecidesAt p offset fault k r) (hresolved : ∀ e, ¬r.Unresolved p e)
    (hindex : f.indexOf r.handlerOffset.toNat = .ok index) : f.HandlesAt p offset fault index :=
  ⟨r, h.meets, h.decides.accepts hresolved, hindex⟩

theorem DecidesAt.spoils_of_unresolved {k : Nat} {e : Error} (h : f.DecidesAt p offset fault k r)
    (hunresolved : r.Unresolved p e) : f.SpoilsAt p offset fault e :=
  ⟨r, h.meets, Or.inl hunresolved⟩

theorem DecidesAt.spoils_of_misplaced {k : Nat} {e : Error} (h : f.DecidesAt p offset fault k r)
    (hresolved : ∀ e, ¬r.Unresolved p e) (hindex : f.indexOf r.handlerOffset.toNat = .error e) :
    f.SpoilsAt p offset fault e :=
  ⟨r, h.meets, Or.inr ⟨h.decides.accepts hresolved, hindex⟩⟩

theorem declines_of_not_decides
    (h : ∀ r ∈ f.regions, r.Guards offset → ¬r.Decides p fault) : f.DeclinesAt p offset fault := by
  intro r hr
  by_contra hnot
  exact h r hr.mem (tries_iff.1 hr).2 (Region.decides_iff.2 hnot)

/-- The ranges of any two catching regions are nested in each other or have nothing in common. -/
def Nested (f : Frame) : Prop :=
  ∀ r ∈ f.regions, ∀ s ∈ f.regions, r.kind = .catching → s.kind = .catching → r.Within s ∨ s.Within r ∨ r.Apart s

/-- Of the regions of a nested frame that do not decline, the innermost decides. -/
theorem DecidesAt.innermost {k : Nat} (h : f.DecidesAt p offset fault k r) (hnested : f.Nested) {s : Region}
    (hmem : s ∈ f.regions) (hguards : s.Guards offset) (hdecides : s.Decides p fault) : r.Within s := by
  obtain ⟨j, hj⟩ := List.mem_iff_getElem?.1 hmem
  have hle : r.tryLength.toNat ≤ s.tryLength.toNat := by
    rcases h.first j s hj hguards hdecides with hlt | ⟨heq, -⟩
    · exact Nat.le_of_lt hlt
    · rw [heq]
  have hr := h.guards.2
  have hs := hguards.2
  have hcases := hnested r h.mem s hmem h.guards.1 hguards.1
  unfold Region.Encloses at hr hs
  unfold Region.Within Region.Apart at hcases
  unfold Region.Within
  omega

/-- Only the catching regions of a frame have a part in its answers. -/
theorem answerAt_withRegions (f : Frame) (offset : Nat) (e : Error) {regions : List Region}
    (h : regions.filter (·.kind == .catching) = f.regions.filter (·.kind == .catching)) :
    { f with regions }.answerAt p offset e = f.answerAt p offset e := by
  have hcandidates : { f with regions }.candidates offset = f.candidates offset := by
    have hfilter : ∀ rs : List Region, (rs.filter fun r => r.kind == .catching && r.covers offset) =
        (rs.filter (·.kind == .catching)).filter (·.covers offset) := by
      intro rs
      rw [List.filter_filter]
      simp only [Bool.and_comm]
    change List.mergeSort (regions.filter fun r => r.kind == .catching && r.covers offset) _ =
      List.mergeSort (f.regions.filter fun r => r.kind == .catching && r.covers offset) _
    rw [hfilter, hfilter, h]
  have hsearch : ∀ fault rs, { f with regions }.handlerAmong p fault rs = f.handlerAmong p fault rs := by
    intro fault rs
    induction rs with
    | nil => rfl
    | cons r rs ih =>
        rw [handlerAmong, handlerAmong, ih]
        rfl
  unfold answerAt
  simp only [hcandidates, hsearch]

end Frame

/-! ### Selection -/

namespace Machine

/-- What the search for a handler does with the error `e`, whose fault handlers see, where it was raised at a position
of the frame `f`. -/
structure SelectsHandler (p : Program) (f : Frame) (m : Machine) (offset : Nat) (e : Error) (fault : Fault) :
    Prop where
  /-- If all regions that catch at the position decline, the error comes back, and nothing has changed. -/
  declined : (∀ r ∈ f.regions, r.Guards offset → ¬r.Decides p fault) →
    handleFault p offset e ⟨f, m⟩ = .error e ⟨f, m⟩
  /-- Otherwise one region decides, -/
  decided : ∀ r ∈ f.regions, r.Guards offset → r.Decides p fault → ∃ k s, f.DecidesAt p offset fault k s
  /-- and no other. -/
  unique : ∀ k r k' r', f.DecidesAt p offset fault k r → f.DecidesAt p offset fault k' r' → k = k' ∧ r = r'
  /-- If its type cannot be resolved, the error of the look-up comes back, and nothing has changed. -/
  unresolved : ∀ k r e', f.DecidesAt p offset fault k r → r.Unresolved p e' →
    (∃ detail, e' = .metadata detail) ∧ handleFault p offset e ⟨f, m⟩ = .error e' ⟨f, m⟩
  /-- If no instruction is where its handler should start, an error that says so comes back, and nothing has changed. -/
  misplaced : ∀ k r, f.DecidesAt p offset fault k r → (∀ e', ¬r.Unresolved p e') →
    (∀ i ∈ f.code, i.offset ≠ r.handlerOffset.toNat) → handleFault p offset e ⟨f, m⟩ =
      .error (.invalidBranchTarget f.currentOffset r.handlerOffset.toNat) ⟨f, m⟩
  /-- Else the answer is the instruction where the handler starts, and the value of the fault is all that is on the
  stack. Of the rest of the frame, and of the machine with all its calls, only the number of the next identity has
  changed. -/
  handled : ∀ k r, f.DecidesAt p offset fault k r → (∀ e', ¬r.Unresolved p e') →
    (∃ i ∈ f.code, i.offset = r.handlerOffset.toNat) → ∃ (index : Nat) (i : Instruction),
      f.code[index]? = some i ∧ i.offset = r.handlerOffset.toNat ∧
      (∀ (j : Nat) i', index < j → f.code[j]? = some i' → i'.offset ≠ r.handlerOffset.toNat) ∧
      handleFault p offset e ⟨f, m⟩ =
        .ok index ⟨{ f with stack := [fault.toValue (m.identityOf e)] }, { m with fresh := m.fresh + 1 }⟩
  /-- In a nested frame the region that decides is the innermost. -/
  innermost : f.Nested → ∀ k r, f.DecidesAt p offset fault k r → ∀ s ∈ f.regions, s.Guards offset →
    s.Decides p fault → r.Within s
  /-- Regions that do not catch have no part in this: with others in their places the answer is the same. -/
  catching : ∀ regions : List Region,
    regions.filter (·.kind == .catching) = f.regions.filter (·.kind == .catching) →
      (∀ index f' m', handleFault p offset e ⟨f, m⟩ = .ok index ⟨f', m'⟩ →
        handleFault p offset e ⟨{ f with regions }, m⟩ = .ok index ⟨{ f' with regions }, m'⟩) ∧
      ∀ e', handleFault p offset e ⟨f, m⟩ = .error e' ⟨f, m⟩ →
        handleFault p offset e ⟨{ f with regions }, m⟩ = .error e' ⟨{ f with regions }, m⟩

section Selection

variable {p : Program} {f : Frame} {offset : Nat} {e : Error}

theorem handleFault_of_passes (m : Machine) {e' : Error} (h : f.answerAt p offset e = .passes e') :
    handleFault p offset e ⟨f, m⟩ = .error e' ⟨f, m⟩ := by
  rw [handleFault_eq, h]

theorem handleFault_of_handles (m : Machine) {fault : Fault} {index : Nat}
    (h : f.answerAt p offset e = .handles fault index) : handleFault p offset e ⟨f, m⟩ =
      .ok index ⟨{ f with stack := [fault.toValue (m.identityOf e)] }, { m with fresh := m.fresh + 1 }⟩ := by
  rw [handleFault_eq, h]

theorem handleFault_withRegions (m : Machine) {regions : List Region}
    (h : regions.filter (·.kind == .catching) = f.regions.filter (·.kind == .catching)) :
    (∀ index f' m', handleFault p offset e ⟨f, m⟩ = .ok index ⟨f', m'⟩ →
      handleFault p offset e ⟨{ f with regions }, m⟩ = .ok index ⟨{ f' with regions }, m'⟩) ∧
    ∀ e', handleFault p offset e ⟨f, m⟩ = .error e' ⟨f, m⟩ →
      handleFault p offset e ⟨{ f with regions }, m⟩ = .error e' ⟨{ f with regions }, m⟩ := by
  have hanswer := f.answerAt_withRegions (p := p) offset e h
  rw [handleFault_eq, handleFault_eq, hanswer]
  cases f.answerAt p offset e with
  | handles fault index =>
      constructor
      · rintro _ _ _ ⟨⟩
        rfl
      · rintro _ ⟨⟩
  | passes e₁ =>
      constructor
      · rintro _ _ _ ⟨⟩
      · rintro _ ⟨⟩
        rfl

end Selection

/-- **Which handler is selected.** Of the regions that catch at a position of a frame and do not decline the fault, the
one with the shortest range decides, and the first declared among several of this length. -/
theorem handler_selection (p : Program) (f : Frame) (m : Machine) (offset : Nat) {e : Error} {fault : Fault}
    (he : e.toFault? = some fault) : SelectsHandler p f m offset e fault where
  declined h := handleFault_of_passes m (Frame.answerAt_of_declines he (Frame.declines_of_not_decides h))
  decided r hmem hguards hdecides := Frame.exists_decidesAt (Frame.tries_iff.2 ⟨hmem, hguards⟩) hdecides
  unique k r k' r' h h' := h.unique h'
  unresolved k r e' h hunresolved :=
    ⟨hunresolved.metadata, handleFault_of_passes m (Frame.answerAt_of_spoils he (h.spoils_of_unresolved hunresolved))⟩
  misplaced k r h hresolved hnone := by
    have hindex := (Frame.indexOf_eq_error_iff (f := f)).2 ⟨rfl, hnone⟩
    exact handleFault_of_passes m (Frame.answerAt_of_spoils he (h.spoils_of_misplaced hresolved hindex))
  handled k r h hresolved hsome := by
    obtain ⟨i, hi, hoffset⟩ := hsome
    cases hindex : f.indexOf r.handlerOffset.toNat with
    | error e' => exact absurd hoffset ((Frame.indexOf_eq_error_iff.1 hindex).2 i hi)
    | ok index =>
        obtain ⟨⟨i', hi', hoffset'⟩, hlast⟩ := Frame.indexOf_eq_ok_iff.1 hindex
        exact ⟨index, i', hi', hoffset', hlast,
          handleFault_of_handles m (Frame.answerAt_of_handles he (h.handles hresolved hindex))⟩
  innermost hnested k r h s hmem hguards hdecides := h.innermost hnested hmem hguards hdecides
  catching regions h := handleFault_withRegions m h

end Machine

/-- A frame that throws among regions of all kinds: one that does not catch, the widest with a type that is not there,
one that declines, and two of the same range that take the fault. -/
def layeredFrame : Frame where
  method := .ofRow .methodDef 1
  code := #[⟨0, .nop⟩, ⟨1, .ldnull⟩, ⟨2, .throw⟩, ⟨3, .pop⟩, ⟨4, .ret⟩]
  regions := [
    { kind := .finalizing, tryOffset := 2, tryLength := 1, handlerOffset := 4 },
    { kind := .catching, tryOffset := 0, tryLength := 0xFFFFFFFF, handlerOffset := 0,
      catchType := some (.ofRow .typeRef 9) },
    { kind := .catching, tryOffset := 2, tryLength := 2, handlerOffset := 4, catchType := some (.ofRow .typeDef 1) },
    { rescueRegion with tryOffset := 1, tryLength := 2, handlerOffset := 3 },
    { kind := .catching, tryOffset := 1, tryLength := 2, handlerOffset := 4 }]
  args := []
  locals := []
  stack := [.int 7]
  ip := 2

theorem rescueProgram_typeName : rescueProgram.index.typeName rescueProgram.image (.ofRow .typeRef 1) =
    .ok "System.NullReferenceException" := by
  decide_cbv

theorem layeredFrame_decidesAt : layeredFrame.DecidesAt rescueProgram 2
    (.builtin "System.NullReferenceException" "throw null") 3
    { rescueRegion with tryOffset := 1, tryLength := 2, handlerOffset := 3 } := by
  have hprogram : rescueProgram.index.typeName rescueProgram.image (.ofRow .typeDef 1) = .ok "Program" := by decide_cbv
  refine ⟨rfl, ⟨rfl, by decide⟩, .named rfl rescueProgram_typeName (Or.inr (by decide_cbv)), ?_⟩
  intro j s hj hs hdecides
  obtain ⟨hlt, -⟩ := List.getElem?_eq_some_iff.1 hj
  change j < 5 at hlt
  interval_cases j <;> obtain rfl := Option.some.inj hj
  · cases hs.1
  · exact Or.inl (by decide)
  · cases hdecides with
    | untyped htype => cases htype
    | nil htype hrow =>
        obtain rfl := Option.some.inj htype
        exact absurd hrow (by decide)
    | unresolved htype hname =>
        obtain rfl := Option.some.inj htype
        rw [hprogram] at hname
        cases hname
    | named htype hname htaken =>
        obtain rfl := Option.some.inj htype
        rw [hprogram] at hname
        obtain rfl := Except.ok.inj hname
        exact absurd htaken (by decide_cbv)
  · exact Or.inr ⟨rfl, by decide⟩
  · exact Or.inr ⟨rfl, by decide⟩

/-- The first of the two narrow regions that take the fault handles it. -/
theorem Machine.handler_selection_layered : ∃ index i value fresh, layeredFrame.code[index]? = some i ∧ i.offset = 3 ∧
    handleFault rescueProgram 2 .throwNull ⟨layeredFrame, {}⟩ =
      .ok index ⟨{ layeredFrame with stack := [value] }, { fresh }⟩ := by
  have hselects := Machine.handler_selection rescueProgram layeredFrame {} 2 (e := .throwNull) rfl
  have hresolved : ∀ e, ¬{ rescueRegion with tryOffset := 1, tryLength := 2, handlerOffset := 3 }.Unresolved
      rescueProgram e := by
    rintro e ⟨type, htype, -, hname⟩
    obtain rfl := Option.some.inj htype
    rw [rescueProgram_typeName] at hname
    cases hname
  obtain ⟨index, i, hi, hoffset, -, hhandled⟩ := hselects.handled 3 _ layeredFrame_decidesAt hresolved
    ⟨⟨3, .pop⟩, Array.mem_of_getElem? (i := 3) rfl, rfl⟩
  exact ⟨index, i, _, _, hi, hoffset, hhandled⟩

end ManagedCode
