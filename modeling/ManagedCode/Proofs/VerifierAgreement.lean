import ManagedCode.Proofs.Calls.Unwinding
import ManagedCode.Proofs.Decoding.Bodies
import ManagedCode.Proofs.VerifiedBodies

/-! The verifier and runs without it find the same flaws. What the verifier finds at an instruction is what performing
the instruction ends in, in every frame of the body that has the operands for it and, if it is a conditional branch, the
condition to take it. And where performing an instruction ends in a jump to no instruction or in a slot that is not
there, the verifier rejects the body. -/

namespace ManagedCode

/-- The errors of jumps to no instruction, and of bodies for which a text says what is wrong, such as a slot that is not
there. -/
def Error.isStructural : Error → Bool
  | .invalidBranchTarget .. | .malformedBody (.described _) => true
  | _ => false

theorem Error.isSound_of_isStructural {e : Error} (h : e.isStructural = true) : e.isSound = false := by
  cases e with
  | invalidBranchTarget => rfl
  | malformedBody flaw => cases flaw <;> first | rfl | cases h
  | _ => cases h

/-- The position of the instruction that the error is about. -/
def VerifyError.instruction? : VerifyError → Option Nat
  | .branchTarget offset _ | .slot _ _ offset _ => some offset
  | .regionStart .. => none

/-- The verifier has one text for each kind of slot, which differ in the name of the kind only. -/
theorem VerifyError.message_slot (kind : SlotKind) (index offset count : Nat) :
    (VerifyError.slot kind index offset count).message =
      s!"{kind.name} index {index} at {Text.offsetText offset} is out of range (count {count})" := by
  cases kind with
  | argument =>
      have hname : toString "argument" ++ toString " index " = "argument index " := rfl
      rw [SlotKind.name, hname]
      rfl
  | localVariable =>
      have hname : toString "local" ++ toString " index " = "local index " := rfl
      rw [SlotKind.name, hname]
      rfl

/-! ### What the verifier finds -/

namespace Verifier

variable {v : Verifier} {code : List Instruction} {regions : List Region} {i : Instruction} {flaw : VerifyError}

/-- The flaw that an instruction of the body has. -/
inductive Finds (v : Verifier) (code : List Instruction) (i : Instruction) : VerifyError → Prop
  | target {target : Nat} (hop : i.op.target? = some target) (hmissing : ∀ j ∈ code, j.offset ≠ target) :
      Finds v code i (.branchTarget i.offset target)
  | slot {kind : SlotKind} {index : Nat} (hop : i.op.slot? = some (kind, index)) (hout : v.slotCount kind ≤ index) :
      Finds v code i (.slot kind index i.offset (v.slotCount kind))

theorem badTarget?_eq_some_iff : badTarget? code i = some flaw ↔
    ∃ target, i.op.target? = some target ∧ (∀ j ∈ code, j.offset ≠ target) ∧ flaw = .branchTarget i.offset target := by
  constructor
  · intro h
    unfold badTarget? at h
    split at h
    · next target hop =>
      split at h
      · cases h
      · next hboundary =>
        cases h
        exact ⟨target, hop, fun j hj hoffset => hboundary (Frame.isBoundary_iff.2 ⟨j, hj, hoffset⟩), rfl⟩
    · cases h
  · rintro ⟨target, hop, hmissing, rfl⟩
    have hboundary : ¬isBoundary code target = true := by
      rw [Frame.isBoundary_iff]
      rintro ⟨j, hj, hoffset⟩
      exact hmissing j hj hoffset
    rw [badTarget?, hop]
    exact if_neg hboundary

theorem badSlot?_eq_some_iff : v.badSlot? i = some flaw ↔ ∃ kind index, i.op.slot? = some (kind, index) ∧
    v.slotCount kind ≤ index ∧ flaw = .slot kind index i.offset (v.slotCount kind) := by
  constructor
  · intro h
    unfold badSlot? at h
    split at h
    · next kind index hop =>
      split at h
      · cases h
      · next hlt =>
        cases h
        exact ⟨kind, index, hop, Nat.le_of_not_lt hlt, rfl⟩
    · cases h
  · rintro ⟨kind, index, hop, hout, rfl⟩
    rw [badSlot?, hop]
    exact if_neg (Nat.not_lt.2 hout)

/-- The flaw of an instruction is a bad target or a bad slot. -/
theorem finds_iff : v.Finds code i flaw ↔ (badTarget? code i).or (v.badSlot? i) = some flaw := by
  have hexclusive : i.op.target? ≠ none → i.op.slot? = none := by
    cases i.op <;> simp [Operation.target?, Operation.slot?]
  constructor
  · intro h
    cases h with
    | target hop hmissing =>
        rw [Option.or_eq_some_iff]
        exact Or.inl (badTarget?_eq_some_iff.2 ⟨_, hop, hmissing, rfl⟩)
    | slot hop hout =>
        have hnone : badTarget? code i = none := by
          refine Option.eq_none_iff_forall_ne_some.2 fun flaw hflaw => ?_
          obtain ⟨target, htarget, -⟩ := badTarget?_eq_some_iff.1 hflaw
          rw [hexclusive (by simp [htarget])] at hop
          cases hop
        rw [hnone, Option.none_or]
        exact badSlot?_eq_some_iff.2 ⟨_, _, hop, hout, rfl⟩
  · intro h
    rcases Option.or_eq_some_iff.1 h with htarget | ⟨-, hslot⟩
    · obtain ⟨target, hop, hmissing, rfl⟩ := badTarget?_eq_some_iff.1 htarget
      exact .target hop hmissing
    · obtain ⟨kind, index, hop, hout, rfl⟩ := badSlot?_eq_some_iff.1 hslot
      exact .slot hop hout

theorem verify_eq_error_iff : v.verify code regions = .error flaw ↔ v.flaw? code regions = some flaw := by
  unfold verify
  cases v.flaw? code regions <;> simp

/-- An error about an instruction is the flaw of the first instruction that has one. -/
theorem finds_of_verify (h : v.verify code regions = .error flaw) {offset : Nat}
    (hoffset : flaw.instruction? = some offset) : ∃ before i after, code = before ++ i :: after ∧ i.offset = offset ∧
      v.Finds code i flaw ∧ ∀ j ∈ before, ∀ flaw', ¬v.Finds code j flaw' := by
  rw [verify_eq_error_iff, flaw?, Option.or_eq_some_iff] at h
  rcases h with hcode | ⟨-, hregions⟩
  · obtain ⟨before, i, after, hsplit, hflaw, hclean⟩ := List.findSome?_eq_some_iff.1 hcode
    have hfinds := finds_iff.2 hflaw
    refine ⟨before, i, after, hsplit, ?_, hfinds, fun j hj flaw' hfinds' => ?_⟩
    · cases hfinds <;> exact Option.some.inj hoffset
    · cases (hclean j hj).symm.trans (finds_iff.1 hfinds')
  · obtain ⟨⟨r, k⟩, -, hbad⟩ := List.exists_of_findSome?_eq_some hregions
    dsimp only at hbad
    unfold badRegion? at hbad
    split at hbad
    · cases hbad
      cases hoffset
    · split at hbad
      · cases hbad
        cases hoffset
      · cases hbad

/-- A body in which an instruction has a flaw is rejected. -/
theorem verify_of_finds (hi : i ∈ code) (h : v.Finds code i flaw) : ∃ flaw', v.verify code regions = .error flaw' := by
  cases hflaw : v.flaw? code regions with
  | some flaw' => exact ⟨flaw', verify_eq_error_iff.2 hflaw⟩
  | none =>
      rw [flaw?, Option.or_eq_none_iff, List.findSome?_eq_none_iff] at hflaw
      have hnone := hflaw.1 i hi
      rw [finds_iff.1 h] at hnone
      cases hnone

end Verifier

/-! ### What performing an instruction finds -/

namespace Frame

variable {f : Frame} {v : Verifier} {code : List Instruction} {target : Nat}

/-- A frame of the body, with a slot for each argument and local that it is verified for. -/
structure RunsBody (v : Verifier) (code : List Instruction) (f : Frame) : Prop where
  code : f.code = code.toArray
  args : f.args.length = v.argCount
  locals : f.locals.length = v.localCount

/-- A call starts in a frame of its body, -/
theorem runsBody_start (v : Verifier) (code : List Instruction) (method : Token) (regions : List Region)
    {args : List Value} (hargs : args.length = v.argCount) :
    (start method code regions args v.localCount).RunsBody v code :=
  ⟨rfl, hargs, List.length_replicate⟩

/-- and stays in frames of it. -/
theorem SameBody.runsBody {f' : Frame} (h : f.SameBody f') (hf : f.RunsBody v code) : f'.RunsBody v code :=
  ⟨h.code.trans hf.code, h.args.trans hf.args, h.locals.trans hf.locals⟩

theorem RunsBody.slots_length (h : f.RunsBody v code) (kind : SlotKind) :
    (f.slots kind).length = v.slotCount kind := by
  cases kind with
  | argument => exact h.args
  | localVariable => exact h.locals

/-- The operands that the operation takes are on the stack, and if it is a conditional branch they are such that it
branches. -/
def Ready (f : Frame) : Operation → Prop
  | .starg _ | .stloc _ => ∃ value stack, f.stack = value :: stack
  | .brfalse _ => ∃ value stack, f.stack = value :: stack ∧ value.isTruthy = false
  | .brtrue _ => ∃ value stack, f.stack = value :: stack ∧ value.isTruthy = true
  | .branch relation _ => ∃ b a stack, f.stack = b :: a :: stack ∧ relation.holds a b = .ok true
  | _ => True

theorem currentOffset_of_getElem? {i : Instruction} (hi : f.code[f.ip]? = some i) : f.currentOffset = i.offset := by
  rw [currentOffset, hi]
  rfl

theorem jumpTo_of_missing (h : ∀ j ∈ f.code, j.offset ≠ target) :
    f.jumpTo target = .error (.invalidBranchTarget f.currentOffset target) := by
  rw [jumpTo, indexOf_eq_error_iff.2 ⟨rfl, h⟩]
  rfl

theorem branchOn_of_missing (h : ∀ j ∈ f.code, j.offset ≠ target) {sense : Bool} {value : Value} {stack : List Value}
    (hstack : f.stack = value :: stack) (hvalue : value.isTruthy = sense) :
    f.branchOn sense target = .error (.invalidBranchTarget f.currentOffset target) := by
  have hjump : { f with stack }.jumpTo target = .error (.invalidBranchTarget f.currentOffset target) :=
    jumpTo_of_missing h
  simp only [branchOn, pop, hstack, bind, Except.bind, if_pos hvalue, hjump]

theorem branchIf_of_missing (h : ∀ j ∈ f.code, j.offset ≠ target) {relation : Relation} {a b : Value}
    {stack : List Value} (hstack : f.stack = b :: a :: stack) (hholds : relation.holds a b = .ok true) :
    f.branchIf relation target = .error (.invalidBranchTarget f.currentOffset target) := by
  have hjump : { f with stack }.jumpTo target = .error (.invalidBranchTarget f.currentOffset target) :=
    jumpTo_of_missing h
  simp only [branchIf, popTwo, pop, hstack, bind, Except.bind, pure, Except.pure, hholds, if_true, hjump]

theorem leave_of_missing (h : ∀ j ∈ f.code, j.offset ≠ target) :
    f.leave target = .error (.invalidBranchTarget f.currentOffset target) := by
  rw [leave, jumpTo_of_missing h]
  rfl

/-- A frame puts a slot that is not there into the words of the verifier. -/
theorem slotError_eq (f : Frame) (kind : SlotKind) (index : Nat) : f.slotError kind index =
    (VerifyError.slot kind index f.currentOffset (f.slots kind).length).toError := by
  rw [VerifyError.toError, VerifyError.message_slot]
  · rfl
  · intro offset target h
    cases h

theorem load_of_out {kind : SlotKind} {index : Nat} (h : (f.slots kind).length ≤ index) :
    f.load kind index = .error (f.slotError kind index) := by
  simp only [load, getSlot, List.getElem?_eq_none h, bind, Except.bind]

theorem store_of_out {kind : SlotKind} {index : Nat} (h : (f.slots kind).length ≤ index) {value : Value}
    {stack : List Value} (hstack : f.stack = value :: stack) :
    f.store kind index = .error (f.slotError kind index) := by
  have hslots : { f with stack }.slots kind = f.slots kind := by cases kind <;> rfl
  have hset : { f with stack }.setSlot kind index value = .error (f.slotError kind index) := by
    unfold setSlot
    rw [hslots, if_neg (Nat.not_lt.2 h), slotError, hslots]
    rfl
  simp only [store, pop, hstack, bind, Except.bind, hset]

end Frame

namespace Machine

variable {p : Program} {config : Config} {m : Machine} {a : Activation} {below : List Activation} {v : Verifier}
  {code : List Instruction} {i : Instruction} {flaw : VerifyError}

/-- A branch that is taken to no instruction fails. -/
theorem perform_of_missing {op : Operation} {target : Nat} (hop : op.target? = some target)
    (hmissing : ∀ j ∈ a.frame.code, j.offset ≠ target) (hready : a.frame.Ready op) :
    m.perform p config a below op = .failed m (.invalidBranchTarget a.frame.currentOffset target) := by
  cases op with
  | br =>
      obtain rfl := Option.some.inj hop
      simp only [perform, Frame.jumpTo_of_missing hmissing, settle]
  | brfalse =>
      obtain rfl := Option.some.inj hop
      obtain ⟨value, stack, hstack, hvalue⟩ := hready
      simp only [perform, Frame.branchOn_of_missing hmissing hstack hvalue, settle]
  | brtrue =>
      obtain rfl := Option.some.inj hop
      obtain ⟨value, stack, hstack, hvalue⟩ := hready
      simp only [perform, Frame.branchOn_of_missing hmissing hstack hvalue, settle]
  | branch =>
      obtain rfl := Option.some.inj hop
      obtain ⟨b, c, stack, hstack, hholds⟩ := hready
      simp only [perform, Frame.branchIf_of_missing hmissing hstack hholds, settle]
  | leave =>
      obtain rfl := Option.some.inj hop
      simp only [perform, Frame.leave_of_missing hmissing, settle]
  | _ => cases hop

/-- An instruction on a slot that is not there fails. -/
theorem perform_of_out {op : Operation} {kind : SlotKind} {index : Nat} (hop : op.slot? = some (kind, index))
    (hout : (a.frame.slots kind).length ≤ index) (hready : a.frame.Ready op) :
    m.perform p config a below op = .failed m (a.frame.slotError kind index) := by
  cases op with
  | ldarg =>
      cases hop
      simp only [perform, Frame.load_of_out hout, settle]
  | ldloc =>
      cases hop
      simp only [perform, Frame.load_of_out hout, settle]
  | starg =>
      cases hop
      obtain ⟨value, stack, hstack⟩ := hready
      simp only [perform, Frame.store_of_out hout hstack, settle]
  | stloc =>
      cases hop
      obtain ⟨value, stack, hstack⟩ := hready
      simp only [perform, Frame.store_of_out hout hstack, settle]
  | _ => cases hop

/-- **What the verifier finds, performing the instruction finds.** -/
theorem perform_of_finds (hbody : a.frame.RunsBody v code) (hi : a.frame.code[a.frame.ip]? = some i)
    (hready : a.frame.Ready i.op) (h : v.Finds code i flaw) :
    m.perform p config a below i.op = .failed m flaw.toError := by
  have hoffset := Frame.currentOffset_of_getElem? hi
  cases h with
  | @target target hop hmissing =>
      have hmissing' : ∀ j ∈ a.frame.code, j.offset ≠ target := by
        rw [hbody.code]
        exact fun j hj => hmissing j (List.mem_toArray.1 hj)
      rw [VerifyError.toError, ← hoffset]
      exact perform_of_missing hop hmissing' hready
  | slot hop hout =>
      rw [← hbody.slots_length] at hout ⊢
      rw [← hoffset, ← Frame.slotError_eq]
      exact perform_of_out hop hout hready

/-- Where performing an instruction that branches or uses a slot ends in an error of this kind, the verifier finds a
flaw at it. -/
theorem finds_of_perform (hbody : a.frame.RunsBody v code)
    (hlocal : i.op.target?.isSome = true ∨ i.op.slot?.isSome = true) {m' : Machine} {e : Error}
    (hfails : m.perform p config a below i.op = .failed m' e) (he : e.isStructural = true) :
    ∃ flaw, v.Finds code i flaw := by
  by_contra hclean
  have hsound : (m.perform p config a below i.op).FailsSoundly := by
    refine perform_local_sound m a below hlocal (fun target hop => ?_) fun kind index hop => ?_
    · by_contra hmissing
      refine hclean ⟨_, .target hop fun j hj hoffset => hmissing ⟨j, ?_, hoffset⟩⟩
      rw [hbody.code]
      exact List.mem_toArray.2 hj
    · by_contra hout
      rw [hbody.slots_length] at hout
      exact hclean ⟨_, .slot hop (Nat.le_of_not_lt hout)⟩
  rw [hfails] at hsound
  exact Bool.false_ne_true ((Error.isSound_of_isStructural he).symm.trans hsound)

theorem toFault?_toError (flaw : VerifyError) : flaw.toError.toFault? = none := by
  cases flaw <;> rfl

/-- An error of a verifier that performing an instruction ends in is the error of the run. -/
theorem endsIn_of_perform {m' : Machine} (hacts : m.activations = a :: below) (hi : a.frame.code[a.frame.ip]? = some i)
    (hfails : m.perform p config a below i.op = .failed m' flaw.toError) :
    m.EndsIn p config { m' with activations := belowHost m.activations } flaw.toError := by
  have hunwind := unwind_of_fatal (p := p) m' (toFault?_toError flaw) m.activations
  refine endsIn_of_step ?_
  rw [← hunwind]
  simp only [step, hacts, hi, hfails]

end Machine

/-! ### Agreement -/

/-- How the verifier and runs that do without it agree on a body of so many bytes. -/
structure Verifier.AgreesWithRuns (v : Verifier) (size : Nat) (code : List Instruction) (regions : List Region) :
    Prop where
  /-- A call that is started without verification starts in a frame of the body, and steps keep the body. -/
  frames : ∀ method args f, args.length = v.argCount →
    (Frame.start method code regions args v.localCount).SameBody f → f.RunsBody v code
  /-- An error that is reported for an instruction is about the first one that has a flaw, and about no other at its
  position if positions are words. Performing it fails with what the error turns into, in every frame of the body that
  is ready for it, and the run ends there. -/
  reported : ∀ flaw offset, v.verify code regions = .error flaw → flaw.instruction? = some offset →
    ∃ index i, code[index]? = some i ∧ i.offset = offset ∧
      (v.Finds code i flaw ∧ ∀ i' ∈ code.take index, ∀ flaw', ¬v.Finds code i' flaw') ∧
      (size ≤ positionLimit → ∀ (j : Nat) i', code[j]? = some i' → i'.offset = offset → j = index) ∧
      ∀ p config m a below, a.frame.RunsBody v code → a.frame.ip = index → a.frame.Ready i.op →
        Machine.perform p config m a below i.op = .failed m flaw.toError ∧
          (m.activations = a :: below →
            m.EndsIn p config { m with activations := belowHost m.activations } flaw.toError)
  /-- If performing an instruction that branches or uses a slot fails with an error of this kind, in any frame of the
  body, the body is rejected. -/
  rejected : ∀ p config m a below i m' e, a.frame.RunsBody v code → a.frame.code[a.frame.ip]? = some i →
    (i.op.target?.isSome = true ∨ i.op.slot?.isSome = true) →
    Machine.perform p config m a below i.op = .failed m' e → e.isStructural = true →
      ∃ flaw, v.verify code regions = .error flaw

/-- **The verifier and the interpreter report the same errors**, for every body that can be decoded. -/
theorem Verifier.agreesWithRuns {bytes : List UInt8} {code : List Instruction} (hdecode : decode bytes = .ok code)
    (signature : Signature) (localCount : Nat) (regions : List Region) :
    (Verifier.mk signature.argCount localCount).AgreesWithRuns bytes.length code regions where
  frames method args f hargs hbody := hbody.runsBody (Frame.runsBody_start _ code method regions hargs)
  reported flaw offset hverify hoffset := by
    obtain ⟨before, i, after, hsplit, hi, hfinds, hclean⟩ := finds_of_verify hverify hoffset
    have hindex : code[before.length]? = some i := by simp [hsplit]
    have htake : code.take before.length = before := by simp [hsplit]
    refine ⟨before.length, i, hindex, hi, ⟨hfinds, htake.symm ▸ hclean⟩, fun hsize j i' hi' hoffset' => ?_,
      fun p config m a below hbody hip hready => ?_⟩
    · exact index_unique (decode_increasing hsize hdecode) hi' hindex (hoffset'.trans hi.symm)
    · have hcurrent : a.frame.code[a.frame.ip]? = some i := by
        rw [hbody.code, hip, List.getElem?_toArray]
        exact hindex
      have hfails : Machine.perform p config m a below i.op = .failed m flaw.toError :=
        Machine.perform_of_finds hbody hcurrent hready hfinds
      exact ⟨hfails, fun hacts => Machine.endsIn_of_perform hacts hcurrent hfails⟩
  rejected p config m a below i m' e hbody hcurrent hlocal hfails he := by
    obtain ⟨flaw, hfinds⟩ := Machine.finds_of_perform hbody hlocal hfails he
    have hmem := Array.mem_of_getElem? hcurrent
    rw [hbody.code] at hmem
    exact verify_of_finds (List.mem_toArray.1 hmem) hfinds

/-- A body that branches into the operand of a constant. -/
def strayBranch : List UInt8 := [0x2B, 0x01, 0x20, 0xE8, 0x03, 0x00, 0x00, 0x2A]

def strayFrame : Frame :=
  .start (.ofRow .methodDef 1) [⟨0, .br 3⟩, ⟨2, .ldc 1000⟩, ⟨7, .ret⟩] [] [] 0

/-- The branch that the verifier reports is the one that the run ends at, with the same positions in the error. -/
theorem Verifier.agreesWithRuns_stray : decode strayBranch = .ok strayFrame.code.toList ∧
    (Verifier.mk 0 0).verify strayFrame.code.toList [] = .error (.branchTarget 0 3) ∧
    Machine.perform rescueProgram {} {} ⟨strayFrame, .host⟩ [] (.br 3) = .failed {} (.invalidBranchTarget 0 3) := by
  have hdecode : decode strayBranch = .ok strayFrame.code.toList := by decide_cbv
  have hverify : (Verifier.mk 0 0).verify strayFrame.code.toList [] = .error (.branchTarget 0 3) := by decide_cbv
  have hagrees : (Verifier.mk 0 0).AgreesWithRuns strayBranch.length strayFrame.code.toList [] :=
    Verifier.agreesWithRuns hdecode {} 0 []
  obtain ⟨index, i, hi, hoffset, -, hunique, hperform⟩ := hagrees.reported _ 0 hverify rfl
  obtain rfl : 0 = index := hunique (by decide) 0 ⟨0, .br 3⟩ rfl rfl
  obtain rfl := Option.some.inj hi
  have hbody : strayFrame.RunsBody (Verifier.mk 0 0) strayFrame.code.toList :=
    hagrees.frames (.ofRow .methodDef 1) [] strayFrame rfl (.refl strayFrame)
  exact ⟨hdecode, hverify, (hperform rescueProgram {} {} ⟨strayFrame, .host⟩ [] hbody rfl trivial).1⟩

end ManagedCode
