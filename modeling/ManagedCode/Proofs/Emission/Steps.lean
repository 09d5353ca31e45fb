import ManagedCode.Proofs.Emission.Encodings
import ManagedCode.Proofs.Emission.Patching
import Mathlib

/-! Writing a body in steps: labels are created and marked, instructions and branches are added, and ranges are
protected. The listing of the steps says what they ask for, instruction by instruction, with each branch at the position
where its label was last marked. A step adds at most one piece to the body, and the emitter binds each label to the
position of its last mark. -/

namespace ManagedCode
namespace Emitter

/-! ### Steps -/

/-- A step of writing a body. -/
inductive Step where
  | newLabel
  | mark (label : Nat)
  | op (opcode : UInt8)
  | opExtended (opcode : UInt8)
  | withToken (opcode : UInt8) (token : Token)
  | ldc (value : Int32)
  | ldarg (index : UInt16)
  | starg (index : UInt16)
  | ldloc (index : UInt16)
  | stloc (index : UInt16)
  | call (method : Token)
  | callvirt (method : Token)
  | newobj (constructor : Token)
  | ldfld (field : Token)
  | stfld (field : Token)
  | ldstr (string : Token)
  | branch (opcode : UInt8) (label : Nat)
  | region (r : LabelledRegion)
  deriving DecidableEq

namespace Step

def apply (e : Emitter) : Step → Emitter
  | .newLabel => e.newLabel.1
  | .mark label => e.mark label
  | .op opcode => e.op opcode
  | .opExtended opcode => e.opExtended opcode
  | .withToken opcode token => e.withToken opcode token
  | .ldc value => e.ldc value
  | .ldarg index => e.ldarg index
  | .starg index => e.starg index
  | .ldloc index => e.ldloc index
  | .stloc index => e.stloc index
  | .call method => e.call method
  | .callvirt method => e.callvirt method
  | .newobj constructor => e.newobj constructor
  | .ldfld field => e.ldfld field
  | .stfld field => e.stfld field
  | .ldstr string => e.ldstr string
  | .branch opcode label => e.branch opcode label
  | .region r => e.region r

/-- The step gives the emitter what it expects: an opcode of the kind it is to write, and a label that was created to
mark. -/
def Proper (e : Emitter) : Step → Prop
  | .mark label => label < e.labels.length
  | .op opcode => (plainOperation? opcode).isSome = true
  | .opExtended opcode => (comparisons.lookup opcode).isSome = true
  | .withToken opcode _ => (tokenOperations.lookup opcode).isSome = true
  | .branch opcode _ => (branchOperation? opcode).isSome = true
  | _ => True

instance (e : Emitter) : (s : Step) → Decidable (s.Proper e)
  | .mark label => inferInstanceAs (Decidable (label < e.labels.length))
  | .op opcode => inferInstanceAs (Decidable ((plainOperation? opcode).isSome = true))
  | .opExtended opcode => inferInstanceAs (Decidable ((comparisons.lookup opcode).isSome = true))
  | .withToken opcode _ => inferInstanceAs (Decidable ((tokenOperations.lookup opcode).isSome = true))
  | .branch opcode _ => inferInstanceAs (Decidable ((branchOperation? opcode).isSome = true))
  | .newLabel | .ldc _ | .ldarg _ | .starg _ | .ldloc _ | .stloc _ | .call _ | .callvirt _ | .newobj _ | .ldfld _
  | .stfld _ | .ldstr _ | .region _ => .isTrue trivial

/-- The step adds an instruction. -/
def emits : Step → Bool
  | .newLabel | .mark _ | .region _ => false
  | _ => true

/-- The operation that the step asks for, with the labels at the given positions. -/
def operation? (position : Nat → Nat) : Step → Option Operation
  | .newLabel | .mark _ | .region _ => none
  | .op opcode => plainOperation? opcode
  | .opExtended opcode => comparisons.lookup opcode
  | .withToken opcode token => (tokenOperations.lookup opcode).map fun make => make token
  | .ldc value => some (.ldc value)
  | .ldarg index => some (.ldarg index)
  | .starg index => some (.starg index)
  | .ldloc index => some (.ldloc index)
  | .stloc index => some (.stloc index)
  | .call method => some (.call method)
  | .callvirt method => some (.callvirt method)
  | .newobj constructor => some (.newobj constructor)
  | .ldfld field => some (.ldfld field)
  | .stfld field => some (.stfld field)
  | .ldstr string => some (.ldstr string)
  | .branch opcode label => (branchOperation? opcode).map fun make => make (position label)

def region? : Step → Option LabelledRegion
  | .region r => some r
  | _ => none

/-- The labels that the step needs the positions of. -/
def uses : Step → List Nat
  | .branch _ label => [label]
  | .region r => [r.tryStart, r.tryEnd, r.handlerStart, r.handlerEnd]
  | _ => []

end Step

/-- The emitter after the steps. -/
def build (e : Emitter) (steps : List Step) : Emitter :=
  steps.foldl Step.apply e

/-- Every step gives the emitter it is taken with what that one expects. -/
def Proper (e : Emitter) : List Step → Prop
  | [] => True
  | s :: rest => s.Proper e ∧ Proper (s.apply e) rest

instance decidableProper : (e : Emitter) → (steps : List Step) → Decidable (Proper e steps)
  | _, [] => .isTrue trivial
  | e, s :: rest =>
      have := decidableProper (s.apply e) rest
      inferInstanceAs (Decidable (_ ∧ _))

/-- The position at which the label was last marked. -/
def lastMark? (label : Nat) (e : Emitter) : List Step → Option Nat
  | [] => none
  | s :: rest => (lastMark? label (s.apply e) rest).or (if s = .mark label then some e.offset else none)

/-- What the steps ask for: an instruction for each step that adds one, at the position it is added at. -/
def listing (position : Nat → Nat) (e : Emitter) : List Step → List Instruction
  | [] => []
  | s :: rest => ((s.operation? position).map (Instruction.mk e.offset)).toList ++ listing position (s.apply e) rest

/-- The label of a branch or a region was never marked. -/
def LeavesUnmarked (steps : List Step) : Prop :=
  ∃ s ∈ steps, ∃ label ∈ s.uses, lastMark? label empty steps = none

/-- A distance that one byte holds. -/
def IsNear (next target : Nat) : Prop :=
  -128 ≤ (target : Int) - next ∧ (target : Int) - next ≤ 127

instance (next target : Nat) : Decidable (IsNear next target) :=
  inferInstanceAs (Decidable (_ ∧ _))

/-- A short branch does not reach the position its label was last marked at. -/
def Overreaches (steps : List Step) : Prop :=
  ∃ before opcode label after target, steps = before ++ .branch opcode label :: after ∧
    isShortBranch opcode = true ∧ lastMark? label empty steps = some target ∧
    ¬IsNear (empty.build (before ++ [.branch opcode label])).offset target

/-- The region stands where its labels were last marked. -/
structure Placed (mark? : Nat → Option Nat) (r : LabelledRegion) (region : Region) : Prop where
  kind : region.kind = r.kind
  catchType : region.catchType = r.catchType
  covers : ∃ first last, mark? r.tryStart = some first ∧ mark? r.tryEnd = some last ∧
    ∀ offset, region.covers offset = true ↔ first ≤ offset ∧ offset < last
  handler : ∃ first last, mark? r.handlerStart = some first ∧ mark? r.handlerEnd = some last ∧
    region.handlerOffset.toNat = first ∧ region.handlerLength.toNat = last - first

/-! ### What a step does -/

/-- The kinds of steps: those that add an instruction, branches, and those that add none. -/
inductive Step.Kind (position : Nat → Nat) : Step → Prop where
  | newLabel : Kind position .newLabel
  | mark (label : Nat) : Kind position (.mark label)
  | region (r : LabelledRegion) : Kind position (.region r)
  | branch {opcode : UInt8} {make : Nat → Operation} (label : Nat) (hmake : branchOperation? opcode = some make) :
      Kind position (.branch opcode label)
  | instruction {s : Step} {op : Operation} {bytes : List UInt8} (hemits : s.emits = true)
      (hop : s.operation? position = some op) (hbytes : ∀ e, s.apply e = e.emit bytes)
      (hreads : ∀ offset, ReadsAs offset bytes op) : Kind position s

theorem Step.Kind.of_emits {position : Nat → Nat} {s : Step} {op : Operation} (hemits : s.emits = true)
    (hop : s.operation? position = some op) (h : Emits (fun e => s.apply e) op) : s.Kind position := by
  obtain ⟨bytes, hbytes, hreads⟩ := h
  exact .instruction hemits hop hbytes hreads

theorem Step.Proper.kind {e : Emitter} {s : Step} (h : s.Proper e) (position : Nat → Nat) : s.Kind position := by
  cases s with
  | newLabel => exact .newLabel
  | mark label => exact .mark label
  | region r => exact .region r
  | branch opcode label =>
      obtain ⟨make, hmake⟩ := Option.isSome_iff_exists.1 h
      exact .branch label hmake
  | op opcode =>
      obtain ⟨op, hop⟩ := Option.isSome_iff_exists.1 h
      exact .of_emits rfl hop (emits_op hop)
  | opExtended opcode =>
      obtain ⟨op, hop⟩ := Option.isSome_iff_exists.1 h
      exact .of_emits rfl hop (emits_opExtended hop)
  | withToken opcode token =>
      obtain ⟨make, hmake⟩ := Option.isSome_iff_exists.1 h
      have hop : operation? position (.withToken opcode token) = some (make token) := by rw [operation?, hmake]; rfl
      exact .of_emits rfl hop (emits_withToken hmake token)
  | ldc value => exact .of_emits rfl rfl (emits_ldc value)
  | ldarg index => exact .of_emits rfl rfl (emits_ldarg index)
  | starg index => exact .of_emits rfl rfl (emits_starg index)
  | ldloc index => exact .of_emits rfl rfl (emits_ldloc index)
  | stloc index => exact .of_emits rfl rfl (emits_stloc index)
  | call method => exact .of_emits rfl rfl (emits_withToken rfl method)
  | callvirt method => exact .of_emits rfl rfl (emits_withToken rfl method)
  | newobj constructor => exact .of_emits rfl rfl (emits_withToken rfl constructor)
  | ldfld field => exact .of_emits rfl rfl (emits_withToken rfl field)
  | stfld field => exact .of_emits rfl rfl (emits_withToken rfl field)
  | ldstr string => exact .of_emits rfl rfl (emits_withToken rfl string)

/-- The piece that the step adds. -/
def Step.piece? : Step → Option Piece
  | .newLabel | .mark _ | .region _ => none
  | .branch opcode label => some (.branch opcode label)
  | s => some (.bytes (s.apply empty).code)

theorem Step.piece?_of_emits {s : Step} {bytes : List UInt8} (hemits : s.emits = true)
    (hbytes : ∀ e : Emitter, s.apply e = e.emit bytes) : s.piece? = some (.bytes bytes) := by
  have hcode : (s.apply empty).code = bytes := congrArg Emitter.code (hbytes empty)
  cases s with
  | newLabel => cases hemits
  | mark label => cases hemits
  | region r => cases hemits
  | branch opcode label =>
      have hfixups := congrArg Emitter.fixups (hbytes empty)
      cases hfixups
  | _ => exact congrArg (some ∘ Piece.bytes) hcode

section Steps

variable {e : Emitter} {s : Step}

theorem Step.Proper.written (h : s.Proper e) {pieces : List Piece} (hwritten : e.Written pieces) :
    (s.apply e).Written (pieces ++ s.piece?.toList) := by
  cases h.kind fun _ => 0 with
  | newLabel => exact (List.append_nil pieces).symm ▸ ⟨hwritten.code, hwritten.fixups⟩
  | mark label => exact (List.append_nil pieces).symm ▸ ⟨hwritten.code, hwritten.fixups⟩
  | region r => exact (List.append_nil pieces).symm ▸ ⟨hwritten.code, hwritten.fixups⟩
  | branch label hmake => exact hwritten.branch _ label
  | instruction hemits _ hbytes _ =>
      rw [piece?_of_emits hemits hbytes, hbytes e]
      exact hwritten.emit _

theorem Step.Proper.regions (h : s.Proper e) : (s.apply e).regions = e.regions ++ s.region?.toList := by
  cases h.kind fun _ => 0 with
  | newLabel => exact (List.append_nil _).symm
  | mark label => exact (List.append_nil _).symm
  | region r => rfl
  | branch label hmake => exact (List.append_nil _).symm
  | instruction hemits _ hbytes _ =>
      have hnone : s.region? = none := by
        cases s with
        | region r => cases hemits
        | _ => rfl
      rw [hbytes e, hnone]
      exact (List.append_nil _).symm

/-- A label is bound by its last mark. -/
theorem Step.Proper.labels (h : s.Proper e) (label : Nat) : (s.apply e).labels[label]?.join =
    (if s = .mark label then some e.offset else none).or e.labels[label]?.join := by
  cases h.kind fun _ => 0 with
  | newLabel =>
      rw [if_neg (by simp), Option.none_or]
      change (e.labels ++ [none])[label]?.join = _
      rcases Nat.lt_trichotomy label e.labels.length with hlt | rfl | hgt
      · rw [List.getElem?_append_left hlt]
      · rw [List.getElem?_concat_length, List.getElem?_eq_none (Nat.le_refl _)]
        rfl
      · have hpast : (e.labels ++ [none]).length ≤ label := by
          rw [List.length_append, List.length_singleton]
          omega
        rw [List.getElem?_eq_none hpast, List.getElem?_eq_none (Nat.le_of_lt hgt)]
  | mark marked =>
      change (e.labels.set marked (some e.offset))[label]?.join = _
      by_cases hlabel : marked = label
      · subst hlabel
        have hcreated : marked < e.labels.length := h
        rw [if_pos rfl, List.getElem?_set_self hcreated]
        rfl
      · rw [if_neg (by simpa using hlabel), Option.none_or, List.getElem?_set_ne hlabel]
  | region r => rw [if_neg (by simp), Option.none_or]; rfl
  | branch _ hmake => rw [if_neg (by simp), Option.none_or]; rfl
  | instruction hemits _ hbytes _ =>
      have hmark : s ≠ .mark label := by
        rintro rfl
        cases hemits
      rw [hbytes e, if_neg hmark, Option.none_or]
      rfl

theorem Step.Proper.isSome_operation? (h : s.Proper e) (position : Nat → Nat) :
    (s.operation? position).isSome = s.emits := by
  cases h.kind position with
  | newLabel => rfl
  | mark label => rfl
  | region r => rfl
  | branch label hmake =>
      rw [operation?, hmake]
      rfl
  | instruction hemits hop _ _ =>
      rw [hop, hemits]
      rfl

/-- A step that asks for no operation adds no piece. -/
theorem Step.Proper.isSome_piece? (h : s.Proper e) : s.piece?.isSome = s.emits := by
  cases h.kind fun _ => 0 with
  | newLabel => rfl
  | mark label => rfl
  | region r => rfl
  | branch label hmake => rfl
  | instruction hemits _ hbytes _ =>
      rw [piece?_of_emits hemits hbytes, hemits]
      rfl

/-! ### Positions -/

theorem Step.Proper.offset (h : s.Proper e) :
    (s.apply e).offset = e.offset + (s.piece?.map Piece.size).getD 0 := by
  cases h.kind fun _ => 0 with
  | newLabel => rfl
  | mark label => rfl
  | region r => rfl
  | @branch opcode _ label hmake =>
      have hpiece := (Piece.branch opcode label).length_blank
      rw [piece?, Option.map_some, Option.getD_some, ← hpiece]
      change (e.code ++ [opcode] ++ _).length = _
      rw [List.append_assoc]
      exact List.length_append
  | instruction hemits _ hbytes _ =>
      rw [piece?_of_emits hemits hbytes, hbytes e]
      exact List.length_append

theorem build_cons (e : Emitter) (s : Step) (rest : List Step) : e.build (s :: rest) = (s.apply e).build rest :=
  rfl

theorem offset_le_build {steps : List Step} (h : Proper e steps) : e.offset ≤ (e.build steps).offset := by
  induction steps generalizing e with
  | nil => exact Nat.le_refl _
  | cons s rest ih =>
      have hstep := h.1.offset
      have hrest := ih h.2
      rw [build_cons]
      omega

theorem lastMark?_le {steps : List Step} {label target : Nat} (h : Proper e steps)
    (hmark : lastMark? label e steps = some target) : target ≤ (e.build steps).offset := by
  induction steps generalizing e with
  | nil => cases hmark
  | cons s rest ih =>
      rw [lastMark?, Option.or_eq_some_iff] at hmark
      rcases hmark with hlater | ⟨-, hhere⟩
      · exact ih h.2 hlater
      · split at hhere
        · cases hhere
          exact offset_le_build h
        · cases hhere

theorem labels_build {steps : List Step} (h : Proper e steps) (label : Nat) :
    (e.build steps).labels[label]?.join = (lastMark? label e steps).or e.labels[label]?.join := by
  induction steps generalizing e with
  | nil => exact (Option.none_or).symm
  | cons s rest ih => rw [build_cons, ih h.2, h.1.labels, lastMark?, Option.or_assoc]

/-- What each step adds at the end of a list of the emitter, the steps add in their order. -/
theorem build_appends {α : Type} {view : Emitter → List α} {added : Step → Option α}
    (happly : ∀ {e : Emitter} {s : Step}, s.Proper e → view (s.apply e) = view e ++ (added s).toList)
    {steps : List Step} (h : Proper e steps) : view (e.build steps) = view e ++ steps.filterMap added := by
  induction steps generalizing e with
  | nil => exact (List.append_nil _).symm
  | cons s rest ih =>
      calc
        view (e.build (s :: rest)) = view (s.apply e) ++ rest.filterMap added := ih h.2
        _ = view e ++ ((added s).toList ++ rest.filterMap added) := by rw [happly h.1, List.append_assoc]
        _ = view e ++ (s :: rest).filterMap added := by
          rw [List.filterMap_cons]
          cases added s <;> rfl

theorem written_build {steps : List Step} (h : Proper e steps) {pieces : List Piece} (hwritten : e.Written pieces) :
    (e.build steps).Written (pieces ++ steps.filterMap Step.piece?) := by
  induction steps generalizing e pieces with
  | nil => exact (List.append_nil pieces).symm ▸ hwritten
  | cons s rest ih =>
      have hrest := ih h.2 (h.1.written hwritten)
      rw [List.append_assoc] at hrest
      rw [build_cons, List.filterMap_cons]
      cases hpiece : s.piece? <;> rwa [hpiece] at hrest

theorem regions_build {steps : List Step} (h : Proper e steps) :
    (e.build steps).regions = e.regions ++ steps.filterMap Step.region? :=
  build_appends Step.Proper.regions h

/-- A label has a position just when it was marked, and it is that of its last mark. -/
theorem position_build {steps : List Step} (h : Proper empty steps) (label target : Nat) :
    (empty.build steps).position label = .ok target ↔ lastMark? label empty steps = some target := by
  have hlabels := labels_build h label
  have hnone : (empty.labels[label]?.join : Option Nat) = none := rfl
  rw [hnone, Option.or_none] at hlabels
  rw [position, hlabels]
  cases lastMark? label empty steps <;> simp

end Steps

/-- The listing has one instruction for each step that adds one. -/
theorem length_listing {e : Emitter} {steps : List Step} (h : Proper e steps) (position : Nat → Nat) :
    (listing position e steps).length = steps.countP Step.emits := by
  induction steps generalizing e with
  | nil => rfl
  | cons s rest ih =>
      have hone := h.1.isSome_operation? position
      rw [listing, List.length_append, ih h.2, List.countP_cons, ← hone]
      cases s.operation? position with
      | none => exact Nat.add_comm 0 _
      | some op => exact Nat.add_comm 1 _

end Emitter
end ManagedCode
