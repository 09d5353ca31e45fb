import ManagedCode.Machine.Step
import ManagedCode.Proofs.Lockstep.Values

/-! Frames that hold related values, and the operations on them: on related frames an operation succeeds with related
frames or fails with related errors. Which handler takes a fault is the same in both. -/

namespace ManagedCode
namespace Renaming

variable (ρ : Renaming)

/-- Frames of one call at one instruction, with related values. -/
structure Frames (f f' : Frame) : Prop where
  method : f.method = f'.method
  code : f.code = f'.code
  regions : f.regions = f'.regions
  args : List.Forall₂ ρ.Values f.args f'.args
  locals : List.Forall₂ ρ.Values f.locals f'.locals
  stack : List.Forall₂ ρ.Values f.stack f'.stack
  ip : f.ip = f'.ip

structure Activations (a a' : Activation) : Prop where
  frame : ρ.Frames a.frame a'.frame
  use : a.use = a'.use

variable {ρ}

section Lists

variable {α β : Type} {R : α → β → Prop} {l : List α} {l' : List β}

theorem rel_getElem? (h : List.Forall₂ R l l') (i : Nat) : Option.Rel R l[i]? l'[i]? := by
  induction h generalizing i with
  | nil => exact .none
  | cons hab _ ih =>
      cases i with
      | zero => exact .some hab
      | succ i => exact ih i

theorem forall₂_set (h : List.Forall₂ R l l') (i : Nat) {a : α} {b : β} (hab : R a b) :
    List.Forall₂ R (l.set i a) (l'.set i b) := by
  induction h generalizing i with
  | nil => exact .nil
  | cons hhead htail ih =>
      cases i with
      | zero => exact .cons hab htail
      | succ i => exact .cons hhead (ih i)

theorem rel_head? (h : List.Forall₂ R l l') : Option.Rel R l.head? l'.head? := by
  cases h with
  | nil => exact .none
  | cons hab _ => exact .some hab

theorem forall₂_tail (h : List.Forall₂ R l l') : List.Forall₂ R l.tail l'.tail := by
  cases h with
  | nil => exact .nil
  | cons _ htail => exact htail

end Lists

theorem Values.objectOf (instruction : String) {v v' : Value} (hv : ρ.Values v v') :
    ρ.Agree ρ.rel (Machine.objectOf instruction v) (Machine.objectOf instruction v') := by
  unfold Machine.objectOf
  rw [hv.kindName]
  cases hv with
  | object hrel => exact .ok hrel
  | _ => exact .error (.plain rfl)

namespace Frames

variable {f f' : Frame} (h : ρ.Frames f f')

include h

theorem next : ρ.Frames f.next f'.next :=
  { h with ip := congrArg (· + 1) h.ip }

theorem push {v v' : Value} (hv : ρ.Values v v') : ρ.Frames (f.push v) (f'.push v') :=
  { h with stack := .cons hv h.stack }

theorem currentOffset : f.currentOffset = f'.currentOffset := by
  rw [Frame.currentOffset, Frame.currentOffset, h.code, h.ip]

theorem slots (kind : SlotKind) : List.Forall₂ ρ.Values (f.slots kind) (f'.slots kind) := by
  cases kind with
  | argument => exact h.args
  | localVariable => exact h.locals

theorem pop : ρ.Agree (fun r r' => ρ.Values r.1 r'.1 ∧ ρ.Frames r.2 r'.2) f.pop f'.pop := by
  have hstack := h.stack
  unfold Frame.pop
  cases hf : f.stack with
  | nil =>
      rw [hf, List.forall₂_nil_left_iff] at hstack
      rw [hstack, h.currentOffset]
      exact .error (.plain rfl)
  | cons v rest =>
      rw [hf] at hstack
      obtain ⟨v', rest', hv, hrest, hf'⟩ := List.forall₂_cons_left_iff.1 hstack
      rw [hf']
      exact .ok ⟨hv, { h with stack := hrest }⟩

theorem peek : ρ.Agree ρ.Values f.peek f'.peek := by
  have hstack := h.stack
  unfold Frame.peek
  cases hf : f.stack with
  | nil =>
      rw [hf, List.forall₂_nil_left_iff] at hstack
      rw [hstack, h.currentOffset]
      exact .error (.plain rfl)
  | cons v rest =>
      rw [hf] at hstack
      obtain ⟨v', rest', hv, -, hf'⟩ := List.forall₂_cons_left_iff.1 hstack
      rw [hf']
      exact .ok hv

theorem popArgs (count : Nat) :
    ρ.Agree (fun r r' => List.Forall₂ ρ.Values r.1 r'.1 ∧ ρ.Frames r.2 r'.2) (f.popArgs count) (f'.popArgs count) := by
  have hlength : f.stack.length = f'.stack.length := h.stack.length_eq
  unfold Frame.popArgs
  rw [hlength, h.currentOffset]
  split
  · exact .error (.plain rfl)
  · refine .ok ⟨?_, { h with stack := List.forall₂_drop count h.stack }⟩
    exact List.forall₂_reverse_iff.2 (List.forall₂_take count h.stack)

theorem indexOf (target : Nat) : ρ.Agree Eq (f.indexOf target) (f'.indexOf target) := by
  unfold Frame.indexOf Frame.indexAt?
  rw [h.code, h.currentOffset]
  split
  · exact .ok rfl
  · exact .error (.plain rfl)

theorem jumpTo (target : Nat) : ρ.Agree ρ.Frames (f.jumpTo target) (f'.jumpTo target) :=
  (h.indexOf target).bind fun _ _ hindex => .ok { h with ip := hindex }

theorem slotError (kind : SlotKind) (index : Nat) : f.slotError kind index = f'.slotError kind index := by
  rw [Frame.slotError, Frame.slotError, h.currentOffset, (h.slots kind).length_eq]

theorem getSlot (kind : SlotKind) (index : Nat) : ρ.Agree ρ.Values (f.getSlot kind index) (f'.getSlot kind index) := by
  have hslot := rel_getElem? (h.slots kind) index
  unfold Frame.getSlot
  rw [h.slotError]
  generalize (f.slots kind)[index]? = slot at hslot ⊢
  generalize (f'.slots kind)[index]? = slot' at hslot ⊢
  cases hslot with
  | none => exact .error (.plain rfl)
  | some hv => exact .ok hv

theorem setSlot (kind : SlotKind) (index : Nat) {v v' : Value} (hv : ρ.Values v v') :
    ρ.Agree ρ.Frames (f.setSlot kind index v) (f'.setSlot kind index v') := by
  unfold Frame.setSlot
  rw [h.slotError, (h.slots kind).length_eq]
  split
  · cases kind with
    | argument => exact .ok { h with args := forall₂_set h.args index hv }
    | localVariable => exact .ok { h with locals := forall₂_set h.locals index hv }
  · exact .error (.plain rfl)

/-! ### Instructions on the frame alone -/

theorem load (kind : SlotKind) (index : Nat) : ρ.Agree ρ.Frames (f.load kind index) (f'.load kind index) :=
  (h.getSlot kind index).bind fun _ _ hv => .ok (h.push hv).next

theorem store (kind : SlotKind) (index : Nat) : ρ.Agree ρ.Frames (f.store kind index) (f'.store kind index) :=
  h.pop.bind fun _ _ hpop => (hpop.2.setSlot kind index hpop.1).bind fun _ _ hset => .ok hset.next

theorem duplicate : ρ.Agree ρ.Frames f.duplicate f'.duplicate :=
  h.peek.bind fun _ _ hv => .ok (h.push hv).next

theorem drop : ρ.Agree ρ.Frames f.drop f'.drop :=
  h.pop.bind fun _ _ hpop => .ok hpop.2.next

theorem popTwo : ρ.Agree (fun r r' => ρ.Values r.1 r'.1 ∧ ρ.Values r.2.1 r'.2.1 ∧ ρ.Frames r.2.2 r'.2.2)
    f.popTwo f'.popTwo :=
  h.pop.bind fun _ _ hb => hb.2.pop.bind fun _ _ ha => .ok ⟨ha.1, hb.1, ha.2⟩

theorem arithmetic (op : Arithmetic) : ρ.Agree ρ.Frames (f.arithmetic op) (f'.arithmetic op) := by
  apply h.popTwo.bind
  rintro r r' ⟨ha, hb, hf⟩
  apply ha.toInt32.bind
  intro x x' hx
  apply hb.toInt32.bind
  intro y y' hy
  rw [← hx, ← hy]
  refine (Agree.of_plain ?_).bind fun n n' hn => ?_
  · exact (op.apply_fails x y).mono fun _ => Error.isPlain_of_isOperand
  · rw [← hn]
    exact .ok (hf.push (.int n)).next

theorem negate : ρ.Agree ρ.Frames f.negate f'.negate := by
  apply h.pop.bind
  intro r r' hpop
  apply hpop.1.toInt32.bind
  intro x x' hx
  rw [← hx]
  exact .ok (hpop.2.push (.int _)).next

theorem compare (relation : Relation) : ρ.Agree ρ.Frames (f.compare relation) (f'.compare relation) := by
  apply h.popTwo.bind
  rintro r r' ⟨ha, hb, hf⟩
  apply (ha.holds relation hb).bind
  intro x x' hx
  rw [← hx]
  exact .ok (hf.push (.int _)).next

theorem branchOn (sense : Bool) (target : Nat) :
    ρ.Agree ρ.Frames (f.branchOn sense target) (f'.branchOn sense target) := by
  apply h.pop.bind
  intro r r' hpop
  dsimp only
  rw [hpop.1.isTruthy]
  split
  · exact hpop.2.jumpTo target
  · exact .ok hpop.2.next

theorem branchIf (relation : Relation) (target : Nat) :
    ρ.Agree ρ.Frames (f.branchIf relation target) (f'.branchIf relation target) := by
  apply h.popTwo.bind
  rintro r r' ⟨ha, hb, hf⟩
  apply (ha.holds relation hb).bind
  intro x x' hx
  rw [← hx]
  split
  · exact hf.jumpTo target
  · exact .ok hf.next

theorem leave (target : Nat) : ρ.Agree ρ.Frames (f.leave target) (f'.leave target) :=
  (h.jumpTo target).bind fun _ _ hf => .ok { hf with stack := .nil }

/-! ### Handlers -/

theorem candidates (offset : Nat) : f.candidates offset = f'.candidates offset := by
  rw [Frame.candidates, Frame.candidates, h.regions]

theorem handlerAmong (p : Program) {fault fault' : Fault} (hfault : ρ.Faults fault fault') (regions : List Region) :
    ρ.Agree Eq (f.handlerAmong p fault regions) (f'.handlerAmong p fault' regions) := by
  induction regions with
  | nil => exact .ok rfl
  | cons r rest ih =>
      have hcatches : p.catches fault' r = p.catches fault r := by
        unfold Program.catches
        simp only [hfault.isInstanceOf]
      rw [Frame.handlerAmong, Frame.handlerAmong, hcatches]
      apply Agree.bind_lookup (p.catches_fails fault r)
      intro taken
      cases taken with
      | true =>
          apply (h.indexOf _).bind
          intro i i' hi
          rw [hi]
          exact .ok rfl
      | false => exact ih

/-! ### Values of a frame -/

theorem roots : List.Forall₂ ρ.Values f.roots f'.roots :=
  List.rel_append (List.rel_append h.args h.locals) (List.forall₂_reverse_iff.2 h.stack)

theorem keep {σ : Renaming} {vs vs' : List Value} (hk : ρ.Keeps σ vs vs') (hmem : ∀ v ∈ f.roots, v ∈ vs)
    (hmem' : ∀ v ∈ f'.roots, v ∈ vs') : σ.Frames f f' := by
  have hroots : ∀ g : Frame, (∀ v ∈ g.args, v ∈ g.roots) ∧ (∀ v ∈ g.locals, v ∈ g.roots) ∧
      ∀ v ∈ g.stack, v ∈ g.roots := by
    intro g
    simp only [Frame.roots, List.mem_append, List.mem_reverse]
    exact ⟨fun v hv => Or.inl (Or.inl hv), fun v hv => Or.inl (Or.inr hv), fun v hv => Or.inr hv⟩
  obtain ⟨hargs, hlocals, hstack⟩ := hroots f
  obtain ⟨hargs', hlocals', hstack'⟩ := hroots f'
  exact { h with
    args := hk.forall₂ (fun v hv => hmem v (hargs v hv)) (fun v hv => hmem' v (hargs' v hv)) h.args
    locals := hk.forall₂ (fun v hv => hmem v (hlocals v hv)) (fun v hv => hmem' v (hlocals' v hv)) h.locals
    stack := hk.forall₂ (fun v hv => hmem v (hstack v hv)) (fun v hv => hmem' v (hstack' v hv)) h.stack }

end Frames

theorem frames_start (method : Token) (code : List Instruction) (regions : List Region) (localCount : Nat)
    {args args' : List Value} (hargs : List.Forall₂ ρ.Values args args') :
    ρ.Frames (.start method code regions args localCount) (.start method code regions args' localCount) where
  method := rfl
  code := rfl
  regions := rfl
  args := hargs
  locals := List.forall₂_same.2 fun v hv => by
    rw [List.eq_of_mem_replicate hv]
    exact .null
  stack := .nil
  ip := rfl

end Renaming
end ManagedCode
