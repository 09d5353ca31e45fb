import ManagedCode.Machine.Step
import Mathlib.Data.List.Forall2

/-! What computations can end in: which results, and which errors. A question to the image or its index fails with an
error of look-up only, and a body that cannot be decoded or verified with an error of bodies only; in particular, none
of them raises a fault of a program. Callers use these facts and do not look into the questions again. -/

namespace ManagedCode

/-- Every error that the computation can end in is of the given kind. -/
def FailsOnly {α : Type} (kind : Error → Bool) (x : Except Error α) : Prop :=
  ∀ e, x = .error e → kind e = true

namespace FailsOnly

variable {α β : Type} {kind kind' : Error → Bool}

theorem ok (a : α) : FailsOnly kind (.ok a) := by
  intro e h
  cases h

theorem error {e : Error} (he : kind e = true) : FailsOnly kind (.error e : Except Error α) := by
  intro e' h
  cases h
  exact he

theorem bind {x : Except Error α} {f : α → Except Error β} (hx : FailsOnly kind x)
    (hf : ∀ a, x = .ok a → FailsOnly kind (f a)) : FailsOnly kind (x >>= f) := by
  cases x with
  | error e => exact error (hx e rfl)
  | ok a => exact hf a rfl

theorem map {x : Except Error α} (f : α → β) (hx : FailsOnly kind x) : FailsOnly kind (x.map f) := by
  cases x with
  | error e => exact error (hx e rfl)
  | ok a => exact ok (f a)

theorem mono {x : Except Error α} (hx : FailsOnly kind x) (hkind : ∀ e, kind e = true → kind' e = true) :
    FailsOnly kind' x :=
  fun e h => hkind e (hx e h)

end FailsOnly

/-- Every result of the computation has the property. -/
def Yields {α : Type} (post : α → Prop) (x : Except Error α) : Prop :=
  ∀ a, x = .ok a → post a

namespace Yields

variable {α β : Type} {post : α → Prop} {post' : β → Prop}

theorem ok {a : α} (h : post a) : Yields post (.ok a) := by
  intro a' ha'
  cases ha'
  exact h

theorem error (e : Error) : Yields post (.error e) := by
  intro a ha
  cases ha

theorem bind {x : Except Error α} {f : α → Except Error β} (hx : Yields post x)
    (hf : ∀ a, post a → Yields post' (f a)) : Yields post' (x >>= f) := by
  cases x with
  | error e => exact error e
  | ok a => exact hf a (hx a rfl)

theorem of_true (x : Except Error α) : Yields (fun _ => True) x :=
  fun _ _ => trivial

end Yields

theorem bind_eq_ok_iff {α β : Type} {x : Except Error α} {f : α → Except Error β} {b : β} :
    x >>= f = .ok b ↔ ∃ a, x = .ok a ∧ f a = .ok b := by
  constructor
  · intro h
    cases x with
    | error e => cases h
    | ok a => exact ⟨a, rfl, h⟩
  · rintro ⟨a, rfl, h⟩
    exact h

theorem exists_of_forall₂ {α β : Type} {R : α → β → Prop} {l : List α} {l' : List β} (h : List.Forall₂ R l l') :
    (∀ a ∈ l, ∃ b ∈ l', R a b) ∧ ∀ b ∈ l', ∃ a ∈ l, R a b := by
  induction h with
  | nil => simp
  | cons hab _ ih =>
      refine ⟨fun a ha => ?_, fun b hb => ?_⟩
      · rcases List.mem_cons.1 ha with rfl | ha
        · exact ⟨_, List.mem_cons_self, hab⟩
        · obtain ⟨b, hb, hrel⟩ := ih.1 a ha
          exact ⟨b, List.mem_cons_of_mem _ hb, hrel⟩
      · rcases List.mem_cons.1 hb with rfl | hb
        · exact ⟨_, List.mem_cons_self, hab⟩
        · obtain ⟨a, ha, hrel⟩ := ih.2 b hb
          exact ⟨a, List.mem_cons_of_mem _ ha, hrel⟩

/-- A computation for each element of a list succeeds only if it does for each of them. -/
theorem forall₂_of_mapM_ok {α β : Type} {f : α → Except Error β} {l : List α} {l' : List β}
    (h : l.mapM f = .ok l') : List.Forall₂ (fun a b => f a = .ok b) l l' := by
  induction l generalizing l' with
  | nil =>
      cases h
      exact .nil
  | cons a rest ih =>
      rw [List.mapM_cons] at h
      obtain ⟨b, hb, h⟩ := bind_eq_ok_iff.1 h
      obtain ⟨bs, hbs, h⟩ := bind_eq_ok_iff.1 h
      cases h
      exact .cons hb (ih hbs)

theorem exists_mapM_ok {α β : Type} {f : α → Except Error β} {l : List α} (h : ∀ a ∈ l, ∃ b, f a = .ok b) :
    ∃ l', l.mapM f = .ok l' := by
  induction l with
  | nil => exact ⟨[], rfl⟩
  | cons a rest ih =>
      obtain ⟨b, hb⟩ := h a List.mem_cons_self
      obtain ⟨bs, hbs⟩ := ih fun c hc => h c (List.mem_cons_of_mem _ hc)
      refine ⟨b :: bs, ?_⟩
      rw [List.mapM_cons]
      exact bind_eq_ok_iff.2 ⟨b, hb, bind_eq_ok_iff.2 ⟨bs, hbs, rfl⟩⟩

theorem mem_of_lookup_eq_some {α β : Type} [BEq α] [LawfulBEq α] {a : α} {b : β} {l : List (α × β)}
    (h : l.lookup a = some b) : (a, b) ∈ l := by
  obtain ⟨before, after, rfl, -⟩ := List.lookup_eq_some_iff.1 h
  exact List.mem_append_right _ List.mem_cons_self

/-- Where no key repeats, each entry is found under its key. -/
theorem lookup_of_mem {α β : Type} [BEq α] [LawfulBEq α] {a : α} {b : β} {l : List (α × β)}
    (hkeys : (l.map Prod.fst).Nodup) (hmem : (a, b) ∈ l) : l.lookup a = some b := by
  induction l with
  | nil => cases hmem
  | cons entry l ih =>
      obtain ⟨hfresh, hkeys⟩ := List.nodup_cons.1 hkeys
      rcases List.mem_cons.1 hmem with rfl | hmem
      · simp
      · have hne : a ≠ entry.1 := fun heq => hfresh (heq ▸ List.mem_map_of_mem hmem)
        rw [List.lookup_cons, beq_false_of_ne hne]
        exact ih hkeys hmem

namespace Error

/-- The errors of rows that are not there. -/
def isMetadata : Error → Bool
  | .metadata _ => true
  | _ => false

/-- The errors of names and tokens that do not resolve. -/
def isLookup : Error → Bool
  | .metadata _ | .missingMethod _ | .unsupportedCall _ => true
  | _ => false

/-- The errors of operands that an integer operation has no result for. -/
def isOperand : Error → Bool
  | .invalidOperand .. => true
  | _ => false

/-- The errors of bodies that cannot be decoded or verified. -/
def isBody : Error → Bool
  | .unsupportedInstruction .. | .malformedBody _ | .invalidBranchTarget .. => true
  | _ => false

/-- The errors that end a run. -/
def isFatal (e : Error) : Bool :=
  e.toFault?.isNone

theorem isLookup_of_isMetadata {e : Error} (h : e.isMetadata = true) : e.isLookup = true := by
  cases e <;> first | rfl | cases h

theorem isFatal_of_isMetadata {e : Error} (h : e.isMetadata = true) : e.isFatal = true := by
  cases e <;> first | rfl | cases h

theorem isFatal_of_isBody {e : Error} (h : e.isBody = true) : e.isFatal = true := by
  cases e <;> first | rfl | cases h

theorem isCatchable_eq_false {e : Error} (h : e.isFatal = true) : e.isCatchable = false := by
  unfold isFatal at h
  unfold isCatchable
  rw [Option.isNone_iff_eq_none.1 h]
  rfl

end Error

/-! ### Integers -/

theorem Value.toInt32_fails (v : Value) : FailsOnly Error.isOperand v.toInt32 := by
  cases v with
  | int n => exact .ok _
  | null => exact .ok _
  | _ => exact .error rfl

theorem checkDivision_fails (a b : Int32) : FailsOnly Error.isOperand (checkDivision a b) := by
  unfold checkDivision
  split
  · exact .error rfl
  · split
    · exact .error rfl
    · exact .ok _

theorem Arithmetic.apply_fails (op : Arithmetic) (a b : Int32) : FailsOnly Error.isOperand (op.apply a b) := by
  cases op with
  | div => exact (checkDivision_fails a b).map _
  | rem => exact (checkDivision_fails a b).map _
  | _ => exact .ok _

theorem Relation.holds_fails (relation : Relation) (a b : Value) : FailsOnly Error.isOperand (relation.holds a b) := by
  have hintegers : ∀ test, FailsOnly Error.isOperand (holds.integers a b test) := fun test =>
    a.toInt32_fails.bind fun _ _ => b.toInt32_fails.bind fun _ _ => .ok _
  cases relation with
  | eq => exact .ok _
  | ne => exact .ok _
  | _ => exact hintegers _

/-! ### The console -/

namespace Console

variable {c : Console} {e : Error}

theorem write_fails {bytes : List UInt8} (h : (c.write bytes).2 = .error e) : ∃ detail, e = .io detail := by
  unfold write at h
  split at h
  · cases h
  · dsimp only at h
    split at h
    · cases h
    · cases h
      exact ⟨_, rfl⟩

theorem writeLine_fails {text : String} (h : (c.writeLine text).2 = .error e) : ∃ detail, e = .io detail := by
  unfold writeLine at h
  split at h
  · exact write_fails h
  · next heq =>
    cases h
    exact write_fails (by rw [heq])

/-- A line that does not fit is cut off where the room ends. -/
example : ((withRoom (some 3)).writeLine "null").1.text = "nul" ∧
    ((withRoom (some 3)).writeLine "null").2 = .error (.io "output limit reached") := by
  decide_cbv

theorem flush_fails (h : c.flush.2 = .error e) : ∃ detail, e = .io detail := by
  unfold flush at h
  dsimp only at h
  split at h
  · cases h
  · cases h
    exact ⟨_, rfl⟩

end Console

/-! ### The image -/

namespace Image

variable (image : Image) (token : Token)

theorem rowOf_fails {α : Type} (rows : List α) (table : Table) (what : String) :
    FailsOnly Error.isMetadata (rowOf rows token table what) := by
  unfold rowOf
  split
  · split
    · exact .ok _
    · exact .error rfl
  · exact .error rfl

theorem typeName_metadata : FailsOnly Error.isMetadata (image.typeName token) := by
  unfold typeName
  split
  · exact (rowOf_fails token image.typeRefs _ _).map _
  · exact (rowOf_fails token image.types _ _).map _

theorem method_metadata : FailsOnly Error.isMetadata (image.method token) :=
  rowOf_fails token image.methods _ _

theorem method_fails : FailsOnly Error.isLookup (image.method token) :=
  (image.method_metadata token).mono fun _ => Error.isLookup_of_isMetadata

theorem userString_fails : FailsOnly Error.isLookup (image.userString token) :=
  (rowOf_fails token image.strings _ _).mono fun _ => Error.isLookup_of_isMetadata

theorem memberRef_fails : FailsOnly Error.isLookup (image.memberRef token) :=
  (rowOf_fails token image.memberRefs _ _).mono fun _ => Error.isLookup_of_isMetadata

end Image

/-! ### The index -/

namespace Index

variable (index : Index) (image : Image) (token : Token)

theorem methodInfo_metadata : FailsOnly Error.isMetadata (index.methodInfo token) := by
  unfold methodInfo
  split
  · exact .ok _
  · exact .error rfl

theorem methodInfo_fails : FailsOnly Error.isLookup (index.methodInfo token) :=
  (index.methodInfo_metadata token).mono fun _ => Error.isLookup_of_isMetadata

theorem typeName_metadata : FailsOnly Error.isMetadata (index.typeName image token) := by
  unfold typeName
  split
  · exact .ok _
  · exact image.typeName_metadata token

theorem typeName_fails : FailsOnly Error.isLookup (index.typeName image token) :=
  (index.typeName_metadata image token).mono fun _ => Error.isLookup_of_isMetadata

theorem fieldKeyOf_fails : FailsOnly Error.isLookup (index.fieldKeyOf image token) := by
  unfold fieldKeyOf
  split
  · exact .ok _
  · split
    · exact (image.memberRef_fails token).bind fun member _ =>
        (index.typeName_fails image member.parent).bind fun _ _ => .ok _
    · exact .error rfl

theorem resolveConstructor_fails : FailsOnly Error.isLookup (index.resolveConstructor image token) := by
  unfold resolveConstructor
  split
  · split
    · exact .ok _
    · exact .error rfl
  · refine (image.memberRef_fails token).bind fun member _ => ?_
    split
    · exact .error rfl
    · split
      · exact (index.typeName_fails image member.parent).bind fun _ _ => .error rfl
      · refine (index.typeName_fails image member.parent).bind fun _ _ => ?_
        split
        · exact .ok _
        · exact .error rfl
  · exact .error rfl

end Index

/-! ### Frames -/

namespace Frame

/-- The value on top is taken off the stack, and nothing else changes. -/
theorem pop_spec (f : Frame) :
    Yields (fun r => f.stack = r.1 :: r.2.stack ∧ r.2 = { f with stack := r.2.stack }) f.pop := by
  unfold pop
  split
  · next heq => exact .ok ⟨heq, rfl⟩
  · exact .error _

/-- The values on top are taken off the stack, the last one first, and nothing else changes. -/
theorem popArgs_spec (f : Frame) (count : Nat) :
    Yields (fun r => r.1.length = count ∧ f.stack = r.1.reverse ++ r.2.stack ∧ r.2 = { f with stack := r.2.stack })
      (f.popArgs count) := by
  unfold popArgs
  split
  · exact .error _
  · next henough =>
    refine .ok ⟨?_, ?_, rfl⟩
    · rw [List.length_reverse, List.length_take]
      omega
    · rw [List.reverse_reverse]
      exact (List.take_append_drop count f.stack).symm

variable {f : Frame} {target : Nat}

theorem find?_reverse_range {n k : Nat} {p : Nat → Bool} : (List.range n).reverse.find? p = some k ↔
    k < n ∧ p k = true ∧ ∀ j, k < j → j < n → p j = false := by
  induction n with
  | zero => simp
  | succ n ih =>
      rw [List.range_succ, List.reverse_append, List.reverse_singleton, List.singleton_append, List.find?_cons]
      cases hn : p n with
      | true =>
          simp only [Option.some.injEq]
          constructor
          · rintro rfl
            exact ⟨Nat.lt_succ_self n, hn, fun j hj hlt => by omega⟩
          · rintro ⟨hlt, -, hlast⟩
            by_contra hne
            have hnot := hlast n (by omega) (Nat.lt_succ_self n)
            rw [hn] at hnot
            cases hnot
      | false =>
          dsimp only
          rw [ih]
          constructor
          · rintro ⟨hlt, hk, hlast⟩
            refine ⟨by omega, hk, fun j hj hjn => ?_⟩
            rcases Nat.lt_succ_iff_lt_or_eq.1 hjn with hjn | rfl
            · exact hlast j hj hjn
            · exact hn
          · rintro ⟨hlt, hk, hlast⟩
            have hne : k ≠ n := by
              rintro rfl
              rw [hn] at hk
              cases hk
            exact ⟨by omega, hk, fun j hj hjn => hlast j hj (by omega)⟩

theorem indexAt?_eq_some_iff {index : Nat} : f.indexAt? target = some index ↔
    (∃ i, f.code[index]? = some i ∧ i.offset = target) ∧
      ∀ (j : Nat) (i : Instruction), index < j → f.code[j]? = some i → i.offset ≠ target := by
  rw [indexAt?, find?_reverse_range]
  simp only [Option.any_eq_true, beq_iff_eq, Option.any_eq_false, beq_eq_false_iff_ne]
  constructor
  · rintro ⟨-, hat, hlast⟩
    refine ⟨hat, fun j i hj hi => ?_⟩
    exact hlast j hj (Array.getElem?_eq_some_iff.1 hi).1 i hi
  · rintro ⟨⟨i, hi, hoffset⟩, hlast⟩
    exact ⟨(Array.getElem?_eq_some_iff.1 hi).1, ⟨i, hi, hoffset⟩, fun j hj _ i hi => hlast j i hj hi⟩

theorem indexAt?_eq_none_iff : f.indexAt? target = none ↔ ∀ i ∈ f.code, i.offset ≠ target := by
  simp only [indexAt?, List.find?_eq_none, List.mem_reverse, List.mem_range, Option.any_eq_true, beq_iff_eq]
  constructor
  · intro hnone i hi hoffset
    obtain ⟨index, hlt, rfl⟩ := Array.mem_iff_getElem.1 hi
    exact hnone index hlt ⟨_, Array.getElem?_eq_getElem hlt, hoffset⟩
  · rintro hall index - ⟨i, hi, hoffset⟩
    exact hall i (Array.mem_of_getElem? hi) hoffset

/-- The index of a branch target is that of the last instruction at it. -/
theorem indexOf_eq_ok_iff {index : Nat} : f.indexOf target = .ok index ↔
    (∃ i, f.code[index]? = some i ∧ i.offset = target) ∧
      ∀ (j : Nat) (i : Instruction), index < j → f.code[j]? = some i → i.offset ≠ target := by
  rw [← indexAt?_eq_some_iff]
  unfold indexOf
  cases f.indexAt? target <;> simp

theorem indexOf_eq_error_iff {e : Error} : f.indexOf target = .error e ↔
    e = .invalidBranchTarget f.currentOffset target ∧ ∀ i ∈ f.code, i.offset ≠ target := by
  rw [← indexAt?_eq_none_iff]
  unfold indexOf
  cases f.indexAt? target with
  | some index => simp
  | none => exact ⟨fun h => ⟨(Except.error.inj h).symm, rfl⟩, fun h => congrArg Except.error h.1.symm⟩

end Frame

/-! ### Bodies -/

theorem Cursor.operand_fails (c : Cursor) (start : Nat) (shape : Shape) :
    FailsOnly Error.isBody (c.operand start shape).1 := by
  have hbranch : ∀ next delta make, FailsOnly Error.isBody (branchTo start next delta make) := by
    intro next delta make
    unfold branchTo
    dsimp only
    split
    · exact .ok _
    · exact .error rfl
  unfold operand
  split
  · exact .ok _
  · exact .ok _
  · exact .ok _
  · exact .ok _
  · exact hbranch _ _ _
  · exact hbranch _ _ _
  · exact .error rfl

theorem Cursor.complete_fails (c : Cursor) (start : Nat) (byte : UInt8) (isExtended : Bool) (shape : Option Shape) :
    FailsOnly Error.isBody (c.complete start byte isExtended shape).1 := by
  unfold complete
  split
  · exact .error rfl
  · next shape =>
    have hoperand := c.operand_fails start shape
    split
    · exact .ok _
    · next heq =>
      rw [heq] at hoperand
      exact .error (hoperand _ rfl)

theorem Cursor.next_fails (c : Cursor) : FailsOnly Error.isBody c.next.1 := by
  unfold next
  split
  · exact .ok _
  · split
    · split
      · exact .error rfl
      · exact complete_fails _ _ _ _ _
    · exact complete_fails _ _ _ _ _

theorem Cursor.readAll_fails (c : Cursor) : FailsOnly Error.isBody c.readAll := by
  have hnext := c.next_fails
  fun_induction readAll c with
  | case1 c e c' heq =>
      rw [heq] at hnext
      exact .error (hnext e rfl)
  | case2 => exact .ok _
  | case3 c i c' heq _ ih => exact (ih c'.next_fails).map _

theorem decode_fails (code : List UInt8) : FailsOnly Error.isBody (decode code) :=
  Cursor.readAll_fails _

namespace Program

variable (p : Program)

theorem verifiedBody_fails (signature : Signature) (m : MethodDef) :
    FailsOnly Error.isBody (verifiedBody signature m) := by
  refine (decode_fails m.code).bind fun code _ => ?_
  split
  · exact .ok _
  · next e _ =>
    cases e with
    | branchTarget => exact .error rfl
    | regionStart => exact .error rfl
    | slot => exact .error rfl

/-! ### Calls -/

theorem memberSignature_fails (member : MemberRef) : FailsOnly Error.isLookup (p.memberSignature member) := by
  unfold memberSignature
  split
  · exact .ok _
  · exact .error rfl

theorem intrinsicOf_fails (member : MemberRef) : FailsOnly Error.isLookup (p.intrinsicOf member) := by
  unfold intrinsicOf
  split
  · exact (p.index.typeName_fails p.image member.parent).bind fun _ _ => .ok _
  · exact .ok _

theorem virtualTarget_fails (token : Token) : FailsOnly Error.isLookup (p.virtualTarget token) := by
  unfold virtualTarget
  split
  · refine (p.index.methodInfo_fails token).bind fun info _ => ?_
    split
    · exact .ok _
    · exact .ok _
  · exact (p.image.memberRef_fails token).bind fun member _ =>
      (p.memberSignature_fails member).bind fun _ _ => .ok _
  · exact .error rfl

theorem memberSignature_eq_ok_iff {member : MemberRef} {signature : Signature} :
    p.memberSignature member = .ok signature ↔ member.signature = some signature := by
  unfold memberSignature
  cases member.signature <;> simp

/-- The target of a virtual call is an instance method of the program, or is named by a reference to a member. -/
theorem virtualTarget_cases {token : Token} {target : VirtualTarget} (h : p.virtualTarget token = .ok (some target)) :
    (∃ info, token.table = .methodDef ∧ p.index.methodInfo token = .ok info ∧ info.signature.isInstance = true ∧
      target = { name := info.name, signature := info.signature, member := none }) ∨
    ∃ member signature, token.table = .memberRef ∧ p.image.memberRef token = .ok member ∧
      p.memberSignature member = .ok signature ∧
      target = { name := member.name, signature, member := some member } := by
  unfold virtualTarget at h
  split at h
  · next htable =>
    obtain ⟨info, hinfo, h⟩ := bind_eq_ok_iff.1 h
    split at h
    · next hinstance =>
      cases h
      exact .inl ⟨info, htable, hinfo, hinstance, rfl⟩
    · cases h
  · next htable =>
    obtain ⟨member, hmember, h⟩ := bind_eq_ok_iff.1 h
    obtain ⟨signature, hsignature, h⟩ := bind_eq_ok_iff.1 h
    cases h
    exact .inr ⟨member, signature, htable, hmember, hsignature, rfl⟩
  · cases h

theorem newObject_resolved_fails (token : Token) : FailsOnly Error.isLookup (Machine.newObject.resolved p token) :=
  (p.index.resolveConstructor_fails p.image token).bind fun r _ =>
    (p.index.methodInfo_fails r.1).bind fun _ _ => (p.index.typeName_fails p.image r.2).bind fun _ _ => .ok _

theorem newObject_resolved_ok {token constructor type : Token} {signature : Signature} {typeName : String}
    (h : Machine.newObject.resolved p token = .ok (constructor, type, signature, typeName)) :
    p.index.resolveConstructor p.image token = .ok (constructor, type) ∧
    ∃ info, p.index.methodInfo constructor = .ok info ∧ signature = info.signature := by
  obtain ⟨⟨constructor', type'⟩, hconstructor, h⟩ := bind_eq_ok_iff.1 h
  obtain ⟨info, hinfo, h⟩ := bind_eq_ok_iff.1 h
  obtain ⟨typeName', -, h⟩ := bind_eq_ok_iff.1 h
  cases h
  exact ⟨hconstructor, info, hinfo, rfl⟩

theorem catches_fails (fault : Fault) (r : Region) : FailsOnly Error.isLookup (p.catches fault r) := by
  unfold catches
  split
  · exact .ok _
  · split
    · exact .ok _
    · exact (p.index.typeName_fails p.image _).bind fun _ _ => .ok _

end Program
end ManagedCode
