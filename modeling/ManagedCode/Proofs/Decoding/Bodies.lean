import ManagedCode.Proofs.Decoding.Grammar

/-! Bodies as sequences of encodings. A body is decoded exactly if it is put together of encodings that follow one
another without a gap, and there is one way at most to do that. The instructions carry the words of the positions where
their encodings start. In a body whose positions all are words these are the positions themselves, so no two of them are
alike. Where a body is not decoded, it is put together of encodings up to the position of the first that is missing, and
the error gives the reason for that. -/

namespace ManagedCode

/-- An operation with bytes that encode it. -/
structure Segment where
  bytes : List UInt8
  op : Operation

namespace Segment

def bytesOf (segments : List Segment) : List UInt8 :=
  segments.flatMap bytes

/-- The instructions of segments that follow one another from the position on. -/
def listing (offset : Nat) : List Segment → List Instruction
  | [] => []
  | segment :: segments => ⟨positionWord offset, segment.op⟩ :: listing (offset + segment.bytes.length) segments

theorem bytesOf_cons (segment : Segment) (segments : List Segment) :
    bytesOf (segment :: segments) = segment.bytes ++ bytesOf segments :=
  List.flatMap_cons

theorem length_bytesOf_cons (segment : Segment) (segments : List Segment) :
    (bytesOf (segment :: segments)).length = segment.bytes.length + (bytesOf segments).length := by
  rw [bytesOf_cons, List.length_append]

theorem length_listing (offset : Nat) (segments : List Segment) :
    (listing offset segments).length = segments.length := by
  induction segments generalizing offset with
  | nil => rfl
  | cons segment segments ih => rw [listing, List.length_cons, List.length_cons, ih]

theorem listing_append (offset : Nat) (before after : List Segment) :
    listing offset (before ++ after) = listing offset before ++ listing (offset + (bytesOf before).length) after := by
  induction before generalizing offset with
  | nil => rfl
  | cons segment before ih =>
      rw [List.cons_append, listing, listing, ih, length_bytesOf_cons, List.cons_append, Nat.add_assoc]

/-- An instruction carries the word of the position behind the encodings before it. -/
theorem getElem?_listing (before : List Segment) (segment : Segment) (after : List Segment) :
    (listing 0 (before ++ segment :: after))[before.length]? =
      some ⟨positionWord (bytesOf before).length, segment.op⟩ := by
  have hlength := length_listing 0 before
  rw [listing_append, List.getElem?_append_right (Nat.le_of_eq hlength), hlength, Nat.sub_self, Nat.zero_add]
  rfl

end Segment

/-- The segments are encodings of instructions that follow one another from the position on. -/
inductive Tiles : Nat → List Segment → Prop
  | nil (offset : Nat) : Tiles offset []
  | cons {offset : Nat} {segment : Segment} {segments : List Segment}
      (hfirst : Encodes offset segment.bytes segment.op) (hrest : Tiles (offset + segment.bytes.length) segments) :
      Tiles offset (segment :: segments)

theorem Encodes.length_pos {offset : Nat} {bytes : List UInt8} {op : Operation} (h : Encodes offset bytes op) :
    0 < bytes.length := by
  cases h <;> exact Nat.succ_pos _

/-- A branch leads to a position that a word holds. -/
theorem Encodes.target_lt {offset : Nat} {bytes : List UInt8} {op : Operation} (h : Encodes offset bytes op)
    {target : Nat} (htarget : op.target? = some target) : target < positionLimit := by
  have hplain : ∀ entry ∈ basicOpcodes ++ comparisons, entry.2.target? = none := by decide
  have hslot : ∀ entry ∈ slotMacros ++ (shortSlots ++ longSlots), ∀ slot, (entry.2 slot).target? = none := by
    simp [slotMacros, shortSlots, longSlots, Operation.target?]
  have htoken : ∀ entry ∈ tokenOperations, ∀ token, (entry.2 token).target? = none := by
    simp [tokenOperations, Operation.target?]
  have hbranch : ∀ entry ∈ nearBranches ++ farBranches, ∀ target, (entry.2 target).target? = some target := by
    simp [nearBranches, farBranches, Operation.target?]
  cases h with
  | basic hopcode => cases (hplain _ (List.mem_append_left _ hopcode)).symm.trans htarget
  | comparison hopcode => cases (hplain _ (List.mem_append_right _ hopcode)).symm.trans htarget
  | slotMacro hfirst _ => cases (hslot _ (List.mem_append_left _ hfirst) _).symm.trans htarget
  | shortSlot hopcode _ =>
      cases (hslot _ (List.mem_append_right _ (List.mem_append_left _ hopcode)) _).symm.trans htarget
  | longSlot hopcode _ =>
      cases (hslot _ (List.mem_append_right _ (List.mem_append_right _ hopcode)) _).symm.trans htarget
  | token hopcode _ => cases (htoken _ hopcode _).symm.trans htarget
  | constantMacro | shortConstant | longConstant => cases htarget
  | nearBranch hopcode _ hlimit =>
      rw [hbranch _ (List.mem_append_left _ hopcode)] at htarget
      exact Option.some.inj htarget ▸ hlimit
  | farBranch hopcode _ _ hlimit =>
      rw [hbranch _ (List.mem_append_right _ hopcode)] at htarget
      exact Option.some.inj htarget ▸ hlimit

namespace Tiles

open Segment

variable {offset : Nat} {segments segments' : List Segment} {rest : List UInt8} {e : Error}

theorem readAll (h : Tiles offset segments) :
    Cursor.readAll ⟨offset, bytesOf segments⟩ = .ok (listing offset segments) := by
  induction h with
  | nil offset => exact Cursor.readAll_nil offset
  | cons hfirst _ ih => exact hfirst.readsAs.readAll rfl ih

/-- Positions and targets are words. -/
theorem words (h : Tiles offset segments) : ∀ i ∈ listing offset segments,
    i.offset < positionLimit ∧ ∀ target, i.op.target? = some target → target < positionLimit := by
  induction h with
  | nil => simp [listing]
  | cons hfirst _ ih =>
      rw [listing]
      exact List.forall_mem_cons.2 ⟨⟨positionWord_lt _, fun _ htarget => hfirst.target_lt htarget⟩, ih⟩

theorem unique (h : Tiles offset segments) (h' : Tiles offset segments') (heq : bytesOf segments = bytesOf segments') :
    segments = segments' := by
  induction h generalizing segments' with
  | nil offset =>
      cases h' with
      | nil => rfl
      | cons hfirst' hrest' =>
          have hlength := congrArg List.length heq
          have hpos := hfirst'.length_pos
          simp only [bytesOf, List.flatMap_nil, List.flatMap_cons, List.length_append, List.length_nil] at hlength
          omega
  | @cons offset segment segments hfirst hrest ih =>
      cases h' with
      | nil =>
          have hlength := congrArg List.length heq
          have hpos := hfirst.length_pos
          simp only [bytesOf, List.flatMap_nil, List.flatMap_cons, List.length_append, List.length_nil] at hlength
          omega
      | @cons _ segment' segments' hfirst' hrest' =>
          obtain ⟨bytes, op⟩ := segment
          obtain ⟨bytes', op'⟩ := segment'
          obtain ⟨rfl, rfl⟩ : bytes = bytes' ∧ op = op' := hfirst.unique hfirst' heq
          rw [ih hrest' (List.append_cancel_left heq)]

/-- Where all positions are words, the instructions stand at positions that increase from the first on. -/
theorem offset_le (h : Tiles offset segments) (hsize : offset + (bytesOf segments).length ≤ positionLimit) :
    ∀ i ∈ listing offset segments, offset ≤ i.offset := by
  induction h with
  | nil => simp [listing]
  | @cons offset segment segments hfirst _ ih =>
      rw [length_bytesOf_cons, ← Nat.add_assoc] at hsize
      have hpos := hfirst.length_pos
      intro i hi
      rcases List.mem_cons.1 hi with rfl | hi
      · exact Nat.le_of_eq (positionWord_of_lt (by omega)).symm
      · exact Nat.le_trans (Nat.le_add_right _ _) (ih hsize i hi)

theorem increasing (h : Tiles offset segments) (hsize : offset + (bytesOf segments).length ≤ positionLimit) :
    (listing offset segments).Pairwise fun i j => i.offset < j.offset := by
  induction h with
  | nil => exact .nil
  | @cons offset segment segments hfirst hrest ih =>
      rw [length_bytesOf_cons, ← Nat.add_assoc] at hsize
      refine List.pairwise_cons.2 ⟨fun i hi => ?_, ih hsize⟩
      have hle := hrest.offset_le hsize i hi
      have hpos := hfirst.length_pos
      dsimp only
      rw [positionWord_of_lt (by omega)]
      omega

/-- What follows encodings starts behind them. -/
theorem drop (before : List Segment) {after : List Segment} (h : Tiles offset (before ++ after)) :
    Tiles (offset + (bytesOf before).length) after := by
  induction before generalizing offset with
  | nil => exact h
  | cons segment before ih =>
      cases h with
      | cons _ hrest =>
          rw [length_bytesOf_cons, ← Nat.add_assoc]
          exact ih hrest

/-- After encodings the decoder comes to what refuses it. -/
theorem readAll_refused (h : Tiles offset segments) (hrefuses : Refuses (offset + (bytesOf segments).length) rest e) :
    Cursor.readAll ⟨offset, bytesOf segments ++ rest⟩ = .error e := by
  induction h with
  | nil offset => exact Cursor.readAll_of_error hrefuses.next
  | @cons offset segment segments hfirst _ ih =>
      rw [bytesOf_cons, List.length_append, ← Nat.add_assoc] at hrefuses
      rw [bytesOf_cons, List.append_assoc, Cursor.readAll_of_next (hfirst.readsAs _), ih hrefuses]
      rfl

end Tiles

/-- Bytes are put together of encodings, up to their end or up to a position where no encoding starts. -/
theorem exists_tiles (offset : Nat) (bytes : List UInt8) : ∃ segments rest, Tiles offset segments ∧
    bytes = Segment.bytesOf segments ++ rest ∧
      (rest = [] ∨ ∃ e, Refuses (offset + (Segment.bytesOf segments).length) rest e) := by
  -- The induction is on the number of bytes left; an encoding uses up one at least.
  induction hlength : bytes.length using Nat.strongRecOn generalizing offset bytes with
  | _ n ih =>
      rcases starts_or_refuses offset bytes with rfl | ⟨piece, op, rest, rfl, hfirst⟩ | hrefuses
      · exact ⟨[], [], .nil offset, rfl, Or.inl rfl⟩
      · have hpos := hfirst.length_pos
        rw [List.length_append] at hlength
        obtain ⟨segments, rest', htiles, rfl, hend⟩ := ih rest.length (by omega) (offset + piece.length) rest rfl
        refine ⟨⟨piece, op⟩ :: segments, rest', .cons hfirst htiles, ?_, ?_⟩
        · rw [Segment.bytesOf_cons, List.append_assoc]
        · rwa [Segment.bytesOf_cons, List.length_append, ← Nat.add_assoc]
      · exact ⟨[], bytes, .nil offset, rfl, Or.inr hrefuses⟩

/-! ### Positions -/

section Increasing

variable {is : List Instruction} (his : is.Pairwise fun i j => i.offset < j.offset)

include his

/-- Where positions increase, no two instructions share one. -/
theorem index_unique {j k : Nat} {i i' : Instruction} (hj : is[j]? = some i) (hk : is[k]? = some i')
    (h : i.offset = i'.offset) : j = k := by
  obtain ⟨hjlt, rfl⟩ := List.getElem?_eq_some_iff.1 hj
  obtain ⟨hklt, rfl⟩ := List.getElem?_eq_some_iff.1 hk
  rcases Nat.lt_trichotomy j k with hlt | heq | hlt
  · exact absurd h (Nat.ne_of_lt (List.pairwise_iff_getElem.1 his j k hjlt hklt hlt))
  · exact heq
  · exact absurd h.symm (Nat.ne_of_lt (List.pairwise_iff_getElem.1 his k j hklt hjlt hlt))

theorem Frame.indexOf_of_increasing {f : Frame} (hcode : f.code = is.toArray) {target index : Nat} :
    f.indexOf target = .ok index ↔ ∃ i, is[index]? = some i ∧ i.offset = target := by
  rw [indexOf_eq_ok_iff, hcode]
  simp only [List.getElem?_toArray]
  refine ⟨And.left, fun hat => ⟨hat, fun j i' hj hi' hoffset => ?_⟩⟩
  obtain ⟨i, hi, rfl⟩ := hat
  exact Nat.ne_of_gt hj (index_unique his hi' hi hoffset)

end Increasing

theorem decode_tiles {segments : List Segment} (h : Tiles 0 segments) :
    decode (Segment.bytesOf segments) = .ok (Segment.listing 0 segments) :=
  h.readAll

theorem decode_refused {segments : List Segment} (h : Tiles 0 segments) {rest : List UInt8} {e : Error}
    (hrefuses : Refuses (Segment.bytesOf segments).length rest e) :
    decode (Segment.bytesOf segments ++ rest) = .error e :=
  h.readAll_refused (by rwa [Nat.zero_add])

/-- A body is put together of encodings and decoded, or it is so up to what refuses it. -/
theorem decode_cases (code : List UInt8) :
    (∃ segments, Tiles 0 segments ∧ code = Segment.bytesOf segments) ∨ ∃ segments rest e, Tiles 0 segments ∧
      code = Segment.bytesOf segments ++ rest ∧ Refuses (Segment.bytesOf segments).length rest e := by
  obtain ⟨segments, rest, htiles, hcode, rfl | ⟨e, hrefuses⟩⟩ := exists_tiles 0 code
  · exact Or.inl ⟨segments, htiles, by rw [hcode, List.append_nil]⟩
  · exact Or.inr ⟨segments, rest, e, htiles, hcode, by rwa [Nat.zero_add] at hrefuses⟩

theorem decode_eq_ok_iff {code : List UInt8} {is : List Instruction} : decode code = .ok is ↔
    ∃ segments, Tiles 0 segments ∧ code = Segment.bytesOf segments ∧ is = Segment.listing 0 segments := by
  constructor
  · intro h
    rcases decode_cases code with ⟨segments, htiles, rfl⟩ | ⟨segments, rest, e, htiles, rfl, hrefuses⟩
    · exact ⟨segments, htiles, rfl, Except.ok.inj (h.symm.trans (decode_tiles htiles))⟩
    · rw [decode_refused htiles hrefuses] at h
      cases h
  · rintro ⟨segments, htiles, rfl, rfl⟩
    exact decode_tiles htiles

theorem decode_increasing {code : List UInt8} {is : List Instruction} (hsize : code.length ≤ positionLimit)
    (h : decode code = .ok is) : is.Pairwise fun i j => i.offset < j.offset := by
  obtain ⟨segments, htiles, rfl, rfl⟩ := decode_eq_ok_iff.1 h
  exact htiles.increasing ((Nat.zero_add _).symm ▸ hsize)

theorem decode_placed {code : List UInt8} (hsize : code.length ≤ positionLimit) {before after : List Segment}
    {segment : Segment} (htiles : Tiles 0 (before ++ segment :: after))
    (hcode : code = Segment.bytesOf (before ++ segment :: after)) :
    (Segment.listing 0 (before ++ segment :: after))[before.length]? =
      some ⟨(Segment.bytesOf before).length, segment.op⟩ := by
  have hpos : 0 < segment.bytes.length := by
    cases htiles.drop before with
    | cons hfirst _ => exact hfirst.length_pos
  have hlength := congrArg List.length hcode
  rw [Segment.bytesOf, List.flatMap_append, List.flatMap_cons, List.length_append, List.length_append] at hlength
  have hlt : (Segment.bytesOf before).length < positionLimit := by
    unfold Segment.bytesOf
    omega
  rw [Segment.getElem?_listing, positionWord_of_lt hlt]

theorem decode_eq_error_iff {code : List UInt8} {e : Error} : decode code = .error e ↔ ∃ segments rest,
    Tiles 0 segments ∧ code = Segment.bytesOf segments ++ rest ∧ Refuses (Segment.bytesOf segments).length rest e := by
  constructor
  · intro h
    rcases decode_cases code with ⟨segments, htiles, rfl⟩ | ⟨segments, rest, e', htiles, rfl, hrefuses⟩
    · rw [decode_tiles htiles] at h
      cases h
    · obtain rfl := Except.error.inj (h.symm.trans (decode_refused htiles hrefuses))
      exact ⟨segments, rest, htiles, rfl, hrefuses⟩
  · rintro ⟨segments, rest, htiles, rfl, hrefuses⟩
    exact decode_refused htiles hrefuses

/-- What the decoder makes of a body. -/
structure DecodesByGrammar (code : List UInt8) : Prop where
  /-- It is decoded exactly if it is put together of encodings, to the instructions that they encode. -/
  accepted : ∀ is, decode code = .ok is ↔
    ∃ segments, Tiles 0 segments ∧ code = Segment.bytesOf segments ∧ is = Segment.listing 0 segments
  /-- Their positions and targets are words. -/
  words : ∀ is, decode code = .ok is → ∀ i ∈ is,
    i.offset < positionLimit ∧ ∀ target, i.op.target? = some target → target < positionLimit
  /-- In a body whose positions are words, each of them stands at the position behind the encodings before it. -/
  placed : code.length ≤ positionLimit → ∀ before segment after, Tiles 0 (before ++ segment :: after) →
    code = Segment.bytesOf (before ++ segment :: after) →
      (Segment.listing 0 (before ++ segment :: after))[before.length]? =
        some ⟨(Segment.bytesOf before).length, segment.op⟩
  /-- There is one way at most to put it together. -/
  unique : ∀ segments segments', Tiles 0 segments → code = Segment.bytesOf segments → Tiles 0 segments' →
    code = Segment.bytesOf segments' → segments = segments'
  /-- There the positions of the instructions increase, -/
  increasing : code.length ≤ positionLimit → ∀ is, decode code = .ok is →
    is.Pairwise fun i j => i.offset < j.offset
  /-- so in a frame the index of a position is that of the instruction at it. -/
  indexed : code.length ≤ positionLimit → ∀ is, decode code = .ok is → ∀ f : Frame, f.code = is.toArray →
    ∀ target index, f.indexOf target = .ok index ↔ ∃ i, is[index]? = some i ∧ i.offset = target
  /-- It is refused exactly if no encoding starts at a position behind the first ones, for the reason that there is. -/
  refused : ∀ e, decode code = .error e ↔ ∃ segments rest, Tiles 0 segments ∧
    code = Segment.bytesOf segments ++ rest ∧ ¬Starts (Segment.bytesOf segments).length rest ∧
      Refuses (Segment.bytesOf segments).length rest e

/-- **The decoder accepts the bodies that are put together of encodings**, and no others. -/
theorem decode_grammar (code : List UInt8) : DecodesByGrammar code where
  accepted _ := decode_eq_ok_iff
  words _ h := by
    obtain ⟨segments, htiles, rfl, rfl⟩ := decode_eq_ok_iff.1 h
    exact htiles.words
  placed hsize _ _ _ := decode_placed hsize
  unique segments segments' h hcode h' hcode' := h.unique h' (hcode.symm.trans hcode')
  increasing hsize _ := decode_increasing hsize
  indexed hsize _ h _ hcode _ _ := Frame.indexOf_of_increasing (decode_increasing hsize h) hcode
  refused e := by
    rw [decode_eq_error_iff]
    constructor
    · rintro ⟨segments, rest, htiles, hcode, hrefuses⟩
      exact ⟨segments, rest, htiles, hcode, hrefuses.not_starts, hrefuses⟩
    · rintro ⟨segments, rest, htiles, hcode, -, hrefuses⟩
      exact ⟨segments, rest, htiles, hcode, hrefuses⟩

/-- A negative constant, a branch back to it, and an opcode that is cut short. -/
example : decode [0x1F, 0xFE, 0x2B, 0xFC] = .ok [⟨0, .ldc (-2)⟩, ⟨2, .br 0⟩] ∧
    decode [0x1F, 0xFE, 0x2B, 0xFC, 0xFE] = .error (.malformedBody (.truncated 4)) := by
  decide_cbv

end ManagedCode
