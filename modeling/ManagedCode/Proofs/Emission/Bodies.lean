import ManagedCode.Proofs.Emission.Steps

/-! Finished bodies. Finishing fails just when a label in use was never marked, or lies too far for a short branch.
Otherwise the code is read back as the listing of the steps, and the regions stand where their labels were last
marked. -/

namespace ManagedCode
namespace Emitter

/-! ### Branches -/

section Branches

variable {E : Emitter} {opcode : UInt8} {label next target : Nat}

theorem assemblePiece_branch (hposition : E.position label = .ok target) :
    E.assemblePiece next (.branch opcode label) =
      if isShortBranch opcode then
        if IsNear next target then .ok [opcode, (Int32.ofInt ((target : Int) - next)).toUInt32.toUInt8]
        else .error (.image (.branchTooFar ((target : Int) - next)))
      else .ok (opcode :: littleEndianBytes (Int32.ofInt ((target : Int) - next)).toUInt32) := by
  have hbytes : E.assemblePiece next (.branch opcode label) =
      (distance (branchFixup next opcode label) target >>= fun bytes => .ok (opcode :: bytes)) := by
    rw [assemblePiece, hposition]
    rfl
  rw [hbytes, distance, branchFixup]
  by_cases hshort : isShortBranch opcode = true
  · by_cases hnear : IsNear next target
    · have hrange : -128 ≤ (target : Int) - next ∧ (target : Int) - next ≤ 127 := hnear
      simp only [hshort, if_pos hnear, if_pos hrange]
      rfl
    · have hrange : ¬(-128 ≤ (target : Int) - next ∧ (target : Int) - next ≤ 127) := hnear
      simp only [hshort, if_neg hnear, if_neg hrange]
      rfl
  · simp only [hshort]
    rfl

/-- A branch can be written if its label has a position, and a short one only if that is near. -/
theorem exists_assemblePiece_branch : (∃ bytes, E.assemblePiece next (.branch opcode label) = .ok bytes) ↔
    ∃ target, E.position label = .ok target ∧ (isShortBranch opcode = true → IsNear next target) := by
  cases hposition : E.position label with
  | error e =>
      rw [assemblePiece, hposition]
      constructor
      · rintro ⟨bytes, hbytes⟩
        cases hbytes
      · rintro ⟨target, htarget, -⟩
        cases htarget
  | ok target =>
      rw [assemblePiece_branch hposition]
      constructor
      · rintro ⟨bytes, hbytes⟩
        refine ⟨target, rfl, fun hshort => ?_⟩
        rw [if_pos hshort] at hbytes
        by_contra hfar
        rw [if_neg hfar] at hbytes
        cases hbytes
      · rintro ⟨_, ⟨⟩, hnear⟩
        split
        · next hshort => exact ⟨_, if_pos (hnear hshort)⟩
        · exact ⟨_, rfl⟩

/-- The bytes of a branch are read as the branch to the position of its label. -/
theorem readsAs_branch {offset : Nat} {make : Nat → Operation} {bytes : List UInt8}
    (hmake : branchOperation? opcode = some make) (hposition : E.position label = .ok target)
    (htarget : target < 0x80000000) (hnext : offset + (Piece.branch opcode label).size = next)
    (hsize : next < 0x80000000) (hbytes : E.assemblePiece next (.branch opcode label) = .ok bytes) :
    offset + bytes.length = next ∧ ReadsAs offset bytes (make target) := by
  have hshape := lookup_of_branchOperation? hmake
  rw [assemblePiece_branch hposition] at hbytes
  rw [Piece.size] at hnext
  by_cases hshort : isShortBranch opcode = true
  · rw [if_pos hshort] at hshape hbytes hnext
    by_cases hnear : IsNear next target
    · rw [if_pos hnear] at hbytes
      cases hbytes
      have hlimit : target < positionLimit := Nat.lt_trans htarget (by decide)
      exact ⟨hnext, (operandAs_near make hnext hlimit hnear.1 hnear.2).oneByte hshape⟩
    · rw [if_neg hnear] at hbytes
      cases hbytes
  · rw [if_neg hshort] at hshape hbytes hnext
    cases hbytes
    exact ⟨hnext, (operandAs_far make hnext htarget hsize).oneByte hshape⟩

end Branches

/-! ### Reading back -/

section Bodies

variable {E : Emitter} {position : Nat → Nat}

/-- A piece that a step adds is read as the operation that the step asks for. -/
theorem Step.Proper.readsAs {e : Emitter} {s : Step} {piece : Piece} {bytes : List UInt8} (h : s.Proper e)
    (hpositions : ∀ label target, E.position label = .ok target → position label = target ∧ target < 0x80000000)
    (hpiece : s.piece? = some piece) (hsize : (s.apply e).offset < 0x80000000)
    (hbytes : E.assemblePiece (s.apply e).offset piece = .ok bytes) :
    ∃ op, s.operation? position = some op ∧ e.offset + bytes.length = (s.apply e).offset ∧
      ReadsAs e.offset bytes op := by
  have hoffset := h.offset
  rw [hpiece] at hoffset
  cases h.kind position with
  | newLabel => cases hpiece
  | mark label => cases hpiece
  | region r => cases hpiece
  | @branch opcode make label hmake =>
      cases hpiece
      obtain ⟨target, hposition, -⟩ := exists_assemblePiece_branch.1 ⟨bytes, hbytes⟩
      obtain ⟨rfl, htarget⟩ := hpositions label target hposition
      obtain ⟨hlength, hreads⟩ := readsAs_branch hmake hposition htarget hoffset.symm hsize hbytes
      exact ⟨make (position label), by rw [operation?, hmake]; rfl, hlength, hreads⟩
  | instruction hemits hop hwritten hreads =>
      rw [piece?_of_emits hemits hwritten] at hpiece
      cases hpiece
      cases hbytes
      exact ⟨_, hop, hoffset.symm, hreads e.offset⟩

/-- **The code of the steps is read back as their listing.** -/
theorem readAll_assemble
    (hpositions : ∀ label target, E.position label = .ok target → position label = target ∧ target < 0x80000000)
    {e : Emitter} {steps : List Step} {code : List UInt8} (h : Proper e steps)
    (hsize : (e.build steps).offset < 0x80000000)
    (hcode : E.assemble e.offset (steps.filterMap Step.piece?) = .ok code) :
    Cursor.readAll ⟨e.offset, code⟩ = .ok (listing position e steps) := by
  induction steps generalizing e code with
  | nil =>
      cases hcode
      exact Cursor.readAll_nil e.offset
  | cons s rest ih =>
      have hbound : (s.apply e).offset < 0x80000000 := Nat.lt_of_le_of_lt (offset_le_build h.2) hsize
      have hoffset := h.1.offset
      rw [List.filterMap_cons] at hcode
      rw [listing]
      cases hpiece : s.piece? with
      | none =>
          -- The step leaves the position as it is and asks for nothing.
          have hop : s.operation? position = none := by
            rw [← Option.isNone_iff_eq_none, ← Option.not_isSome, h.1.isSome_operation?, ← h.1.isSome_piece?, hpiece]
            rfl
          rw [hpiece] at hcode hoffset
          rw [hop]
          have hsame : (s.apply e).offset = e.offset := hoffset
          have hrest := ih h.2 hsize (hsame ▸ hcode)
          rwa [hsame] at hrest
      | some piece =>
          rw [hpiece] at hcode hoffset
          obtain ⟨bytes, hbytes, hcode⟩ := bind_eq_ok_iff.1 hcode
          obtain ⟨others, hothers, hcode⟩ := bind_eq_ok_iff.1 hcode
          cases hcode
          have hsame : (s.apply e).offset = e.offset + piece.size := hoffset
          rw [← hsame] at hbytes hothers
          obtain ⟨op, hop, hlength, hreads⟩ := h.1.readsAs hpositions hpiece hbound hbytes
          have hword : positionWord e.offset = e.offset :=
            positionWord_of_lt (Nat.lt_trans (Nat.lt_of_le_of_lt (by omega) hbound) (by decide))
          have hread := hreads.readAll hlength (ih h.2 hsize hothers)
          rw [hword] at hread
          rw [hop]
          exact hread

/-- The piece of the step, if it adds one, can be written up to the position `next`. -/
def Step.CanWrite (E : Emitter) (next : Nat) (s : Step) : Prop :=
  ∀ piece, s.piece? = some piece → ∃ bytes, E.assemblePiece next piece = .ok bytes

theorem exists_assemble_cons {start : Nat} {piece : Piece} {rest : List Piece} :
    (∃ code, E.assemble start (piece :: rest) = .ok code) ↔
      (∃ bytes, E.assemblePiece (start + piece.size) piece = .ok bytes) ∧
        ∃ code, E.assemble (start + piece.size) rest = .ok code := by
  constructor
  · rintro ⟨code, hcode⟩
    obtain ⟨bytes, hbytes, hcode⟩ := bind_eq_ok_iff.1 hcode
    obtain ⟨others, hothers, -⟩ := bind_eq_ok_iff.1 hcode
    exact ⟨⟨bytes, hbytes⟩, ⟨others, hothers⟩⟩
  · rintro ⟨⟨bytes, hbytes⟩, ⟨others, hothers⟩⟩
    exact ⟨bytes ++ others, bind_eq_ok_iff.2 ⟨bytes, hbytes, bind_eq_ok_iff.2 ⟨others, hothers, rfl⟩⟩⟩

/-- The steps can be written just when the piece of each of them can be. -/
theorem exists_assemble {e : Emitter} {steps : List Step} (h : Proper e steps) :
    (∃ code, E.assemble e.offset (steps.filterMap Step.piece?) = .ok code) ↔
      ∀ before s after, steps = before ++ s :: after → s.CanWrite E (e.build (before ++ [s])).offset := by
  induction steps generalizing e with
  | nil =>
      refine ⟨fun _ before s after hsteps => ?_, fun _ => ⟨[], rfl⟩⟩
      cases before <;> cases hsteps
  | cons s rest ih =>
      have hoffset := h.1.offset
      -- The first step is split off on both sides; the position behind it is where the others start.
      have hfirst : (∃ code, E.assemble e.offset ((s :: rest).filterMap Step.piece?) = .ok code) ↔
          s.CanWrite E (s.apply e).offset ∧
            ∃ code, E.assemble (s.apply e).offset (rest.filterMap Step.piece?) = .ok code := by
        rw [List.filterMap_cons]
        cases hpiece : s.piece? with
        | none =>
            rw [hpiece] at hoffset
            have hwrites : s.CanWrite E (s.apply e).offset := by
              intro piece hadds
              rw [hpiece] at hadds
              cases hadds
            rw [hoffset]
            exact ⟨fun hcode => ⟨hoffset ▸ hwrites, hcode⟩, And.right⟩
        | some piece =>
            rw [hpiece] at hoffset
            have hnext : (s.apply e).offset = e.offset + piece.size := hoffset
            have hwrites : s.CanWrite E (s.apply e).offset ↔
                ∃ bytes, E.assemblePiece (e.offset + piece.size) piece = .ok bytes := by
              rw [Step.CanWrite, hpiece, hnext]
              exact ⟨fun hall => hall piece rfl, fun hbytes _ hadds => Option.some.inj hadds ▸ hbytes⟩
            rw [hwrites, hnext]
            exact exists_assemble_cons
      rw [hfirst, ih h.2]
      constructor
      · rintro ⟨hs, hrest⟩ before t after hsteps
        cases before with
        | nil =>
            cases hsteps
            exact hs
        | cons _ before =>
            cases hsteps
            exact hrest before t after rfl
      · intro hall
        refine ⟨hall [] s rest rfl, fun before t after hsteps => hall (s :: before) t after ?_⟩
        rw [hsteps]
        rfl

theorem canWrite_branch {opcode : UInt8} {label next : Nat} : (Step.branch opcode label).CanWrite E next ↔
    ∃ target, E.position label = .ok target ∧ (isShortBranch opcode = true → IsNear next target) := by
  rw [← exists_assemblePiece_branch]
  constructor
  · intro h
    exact h _ rfl
  · rintro h _ ⟨⟩
    exact h

/-- Only branches may be impossible to write. -/
theorem Step.Proper.canWrite {e : Emitter} {s : Step} (h : s.Proper e)
    (hbranch : ∀ opcode label, s ≠ .branch opcode label) (next : Nat) : s.CanWrite E next := by
  intro piece hpiece
  cases h.kind fun _ => 0 with
  | newLabel => cases hpiece
  | mark label => cases hpiece
  | region r => cases hpiece
  | @branch opcode _ label hmake => exact absurd rfl (hbranch opcode label)
  | instruction hemits _ hbytes _ =>
      rw [piece?_of_emits hemits hbytes] at hpiece
      cases hpiece
      exact ⟨_, rfl⟩

theorem Proper.split {e : Emitter} {before after : List Step} {s : Step} (h : Proper e (before ++ s :: after)) :
    s.Proper (e.build before) := by
  induction before generalizing e with
  | nil => exact h.1
  | cons t before ih => exact ih h.2

theorem placeRegion_eq_ok_iff {r : LabelledRegion} {region : Region} : E.placeRegion r = .ok region ↔
    ∃ tryStart handlerStart tryEnd handlerEnd,
      E.position r.tryStart = .ok tryStart ∧ E.position r.handlerStart = .ok handlerStart ∧
      E.position r.tryEnd = .ok tryEnd ∧ E.position r.handlerEnd = .ok handlerEnd ∧
      region = {
        kind := r.kind
        tryOffset := UInt32.ofNat tryStart
        tryLength := UInt32.ofNat (tryEnd - tryStart)
        handlerOffset := UInt32.ofNat handlerStart
        handlerLength := UInt32.ofNat (handlerEnd - handlerStart)
        catchType := r.catchType } := by
  simp only [placeRegion, bind_eq_ok_iff]
  constructor
  · rintro ⟨tryStart, h₁, handlerStart, h₂, tryEnd, h₃, handlerEnd, h₄, ⟨⟩⟩
    exact ⟨tryStart, handlerStart, tryEnd, handlerEnd, h₁, h₂, h₃, h₄, rfl⟩
  · rintro ⟨tryStart, handlerStart, tryEnd, handlerEnd, h₁, h₂, h₃, h₄, rfl⟩
    exact ⟨tryStart, h₁, handlerStart, h₂, tryEnd, h₃, handlerEnd, h₄, rfl⟩

theorem finish_eq_ok_iff {pieces : List Piece} (hwritten : E.Written pieces) {code : List UInt8}
    {regions : List Region} : E.finish = .ok (code, regions) ↔
      E.assemble 0 pieces = .ok code ∧ E.regions.mapM E.placeRegion = .ok regions := by
  simp only [finish, bind_eq_ok_iff, hwritten.foldlM_patch]
  constructor
  · rintro ⟨_, hcode, _, hregions, ⟨⟩⟩
    exact ⟨hcode, hregions⟩
  · rintro ⟨hcode, hregions⟩
    exact ⟨code, hcode, regions, hregions, rfl⟩

end Bodies

/-! ### Finished bodies -/

section Finished

variable {steps : List Step} (h : Proper empty steps)

include h

theorem written_pieces : (empty.build steps).Written (steps.filterMap Step.piece?) :=
  written_build h .empty

theorem exists_position (label : Nat) :
    (∃ target, (empty.build steps).position label = .ok target) ↔ lastMark? label empty steps ≠ none := by
  simp only [position_build h, Option.ne_none_iff_exists']

/-- The code can be written if the label of every branch was marked and no short branch overreaches. -/
theorem exists_code : (∃ code, (empty.build steps).assemble 0 (steps.filterMap Step.piece?) = .ok code) ↔
    (∀ opcode label, .branch opcode label ∈ steps → lastMark? label empty steps ≠ none) ∧ ¬Overreaches steps := by
  refine (exists_assemble h).trans ⟨fun hall => ⟨fun opcode label hmem => ?_, ?_⟩, fun ⟨hmarked, hreach⟩ => ?_⟩
  · obtain ⟨before, after, hsteps⟩ := List.append_of_mem hmem
    obtain ⟨target, htarget, -⟩ := canWrite_branch.1 (hall before _ after hsteps)
    exact (exists_position h label).1 ⟨target, htarget⟩
  · rintro ⟨before, opcode, label, after, target, hsteps, hshort, hmark, hfar⟩
    obtain ⟨target', htarget, hnear⟩ := canWrite_branch.1 (hall before _ after hsteps)
    rw [(position_build h label target).2 hmark] at htarget
    cases htarget
    exact hfar (hnear hshort)
  · intro before s after hsteps
    by_cases hbranch : ∃ opcode label, s = .branch opcode label
    · obtain ⟨opcode, label, rfl⟩ := hbranch
      have hmem : .branch opcode label ∈ steps := hsteps ▸ List.mem_append_right _ List.mem_cons_self
      obtain ⟨target, hmark⟩ := Option.ne_none_iff_exists'.1 (hmarked opcode label hmem)
      refine canWrite_branch.2 ⟨target, (position_build h label target).2 hmark, fun hshort => ?_⟩
      by_contra hfar
      exact hreach ⟨before, opcode, label, after, target, hsteps, hshort, hmark, hfar⟩
    · subst hsteps
      exact h.split.canWrite (fun opcode label hs => hbranch ⟨opcode, label, hs⟩) _

theorem mem_regions_build (r : LabelledRegion) : r ∈ (empty.build steps).regions ↔ .region r ∈ steps := by
  rw [regions_build h]
  constructor
  · intro hmem
    obtain ⟨s, hs, hr⟩ := List.mem_filterMap.1 hmem
    cases s with
    | region r' =>
        cases hr
        exact hs
    | _ => cases hr
  · intro hmem
    exact List.mem_filterMap.2 ⟨_, hmem, rfl⟩

/-- The regions can be placed if their labels were marked. -/
theorem exists_regions :
    (∃ regions, (empty.build steps).regions.mapM (empty.build steps).placeRegion = .ok regions) ↔
      ∀ r, .region r ∈ steps → ∀ label ∈ (Step.region r).uses, lastMark? label empty steps ≠ none := by
  constructor
  · rintro ⟨regions, hregions⟩ r hr label hlabel
    obtain ⟨region, -, hregion⟩ :=
      (exists_of_forall₂ (forall₂_of_mapM_ok hregions)).1 r ((mem_regions_build h r).2 hr)
    obtain ⟨_, _, _, _, h₁, h₂, h₃, h₄, -⟩ := placeRegion_eq_ok_iff.1 hregion
    simp only [Step.uses, List.mem_cons, List.not_mem_nil, or_false] at hlabel
    rcases hlabel with rfl | rfl | rfl | rfl <;> exact (exists_position h _).1 ⟨_, ‹_›⟩
  · intro hmarked
    refine exists_mapM_ok fun r hr => ?_
    have hposition : ∀ label ∈ (Step.region r).uses, ∃ target, (empty.build steps).position label = .ok target :=
      fun label hlabel => (exists_position h label).2 (hmarked r ((mem_regions_build h r).1 hr) label hlabel)
    obtain ⟨tryStart, h₁⟩ := hposition r.tryStart (by simp [Step.uses])
    obtain ⟨tryEnd, h₂⟩ := hposition r.tryEnd (by simp [Step.uses])
    obtain ⟨handlerStart, h₃⟩ := hposition r.handlerStart (by simp [Step.uses])
    obtain ⟨handlerEnd, h₄⟩ := hposition r.handlerEnd (by simp [Step.uses])
    exact ⟨_, placeRegion_eq_ok_iff.2 ⟨tryStart, handlerStart, tryEnd, handlerEnd, h₁, h₃, h₂, h₄, rfl⟩⟩

/-- **When a body can be finished.** -/
theorem exists_finish :
    (∃ body, (empty.build steps).finish = .ok body) ↔ ¬LeavesUnmarked steps ∧ ¬Overreaches steps := by
  have hparts : (∃ body, (empty.build steps).finish = .ok body) ↔
      (∃ code, (empty.build steps).assemble 0 (steps.filterMap Step.piece?) = .ok code) ∧
        ∃ regions, (empty.build steps).regions.mapM (empty.build steps).placeRegion = .ok regions := by
    constructor
    · rintro ⟨⟨code, regions⟩, hbody⟩
      obtain ⟨hcode, hregions⟩ := (finish_eq_ok_iff (written_pieces h)).1 hbody
      exact ⟨⟨code, hcode⟩, ⟨regions, hregions⟩⟩
    · rintro ⟨⟨code, hcode⟩, ⟨regions, hregions⟩⟩
      exact ⟨(code, regions), (finish_eq_ok_iff (written_pieces h)).2 ⟨hcode, hregions⟩⟩
  rw [hparts, exists_code h, exists_regions h]
  constructor
  · rintro ⟨⟨hbranches, hreach⟩, hregions⟩
    refine ⟨?_, hreach⟩
    rintro ⟨s, hs, label, hlabel, hnone⟩
    cases s with
    | branch opcode label' =>
        obtain rfl := List.mem_singleton.1 hlabel
        exact hbranches opcode label hs hnone
    | region r => exact hregions r hs label hlabel hnone
    | _ => cases hlabel
  · rintro ⟨hmarked, hreach⟩
    refine ⟨⟨fun opcode label hs hnone => ?_, hreach⟩, fun r hs label hlabel hnone => ?_⟩
    · exact hmarked ⟨_, hs, label, List.mem_singleton.2 rfl, hnone⟩
    · exact hmarked ⟨_, hs, label, hlabel, hnone⟩

variable (hsize : (empty.build steps).offset < 0x80000000)

include hsize

theorem position_lt {label target : Nat} (hmark : lastMark? label empty steps = some target) : target < 0x80000000 :=
  Nat.lt_of_le_of_lt (lastMark?_le h hmark) hsize

theorem decode_code {code : List UInt8}
    (hcode : (empty.build steps).assemble 0 (steps.filterMap Step.piece?) = .ok code) :
    decode code = .ok (listing (fun label => (lastMark? label empty steps).getD 0) empty steps) := by
  have hpositions : ∀ label target, (empty.build steps).position label = .ok target →
      (lastMark? label empty steps).getD 0 = target ∧ target < 0x80000000 := by
    intro label target hposition
    have hmark := (position_build h label target).1 hposition
    rw [hmark]
    exact ⟨rfl, position_lt h hsize hmark⟩
  exact readAll_assemble hpositions h hsize hcode

theorem placed_of_placeRegion {r : LabelledRegion} {region : Region}
    (hregion : (empty.build steps).placeRegion r = .ok region) :
    Placed (fun label => lastMark? label empty steps) r region := by
  obtain ⟨tryStart, handlerStart, tryEnd, handlerEnd, h₁, h₂, h₃, h₄, rfl⟩ := placeRegion_eq_ok_iff.1 hregion
  rw [position_build h] at h₁ h₂ h₃ h₄
  have hword : ∀ {n : Nat}, n < 0x80000000 → (UInt32.ofNat n).toNat = n :=
    fun hn => UInt32.toNat_ofNat_of_lt' (Nat.lt_trans hn (by decide))
  have htryStart := position_lt h hsize h₁
  have hhandlerStart := position_lt h hsize h₂
  have htryEnd := position_lt h hsize h₃
  have hhandlerEnd := position_lt h hsize h₄
  refine ⟨rfl, rfl, ⟨tryStart, tryEnd, h₁, h₃, fun offset => ?_⟩,
    ⟨handlerStart, handlerEnd, h₂, h₄, hword hhandlerStart, hword (by omega)⟩⟩
  have hlength : tryEnd - tryStart < 0x80000000 := by omega
  simp only [Region.covers, hword htryStart, hword hlength, Bool.and_eq_true, decide_eq_true_eq]
  omega

end Finished

/-- **Emitted code is read back as it was asked for.** Let the steps give the emitter what it expects and write less
than two gigabytes. Finishing fails just when a label in use was never marked or a short branch does not reach its
label. Otherwise the code holds one instruction for each step that adds one, which is what the listing of the steps
says, and the regions stand where their labels were last marked. -/
theorem emitted_code_read_back (steps : List Step) (hsteps : Proper empty steps)
    (hsize : (empty.build steps).offset < 0x80000000) :
    ((∃ error, (empty.build steps).finish = .error error) ↔ LeavesUnmarked steps ∨ Overreaches steps) ∧
    ∀ code regions, (empty.build steps).finish = .ok (code, regions) →
      (decode code = .ok (listing (fun label => (lastMark? label empty steps).getD 0) empty steps) ∧
        (listing (fun label => (lastMark? label empty steps).getD 0) empty steps).length = steps.countP Step.emits) ∧
      List.Forall₂ (Placed fun label => lastMark? label empty steps) (steps.filterMap Step.region?) regions := by
  constructor
  · have hfails : (∃ error, (empty.build steps).finish = .error error) ↔
        ¬∃ body, (empty.build steps).finish = .ok body := by
      cases (empty.build steps).finish <;> simp
    rw [hfails, exists_finish hsteps, not_and_or, not_not, not_not]
  · intro code regions hbody
    obtain ⟨hcode, hregions⟩ := (finish_eq_ok_iff (written_pieces hsteps)).1 hbody
    refine ⟨⟨decode_code hsteps hsize hcode, length_listing hsteps _⟩, ?_⟩
    have hplaced := forall₂_of_mapM_ok hregions
    rw [regions_build hsteps] at hplaced
    exact hplaced.imp fun r region hregion => placed_of_placeRegion hsteps hsize hregion

/-- A loop on an argument, and a way out of it whose label is marked twice. -/
def loopSteps : List Step :=
  [.newLabel, .newLabel, .mark 0, .ldarg 300, .branch 0x2D 0, .mark 1, .branch 0x38 1, .ldc (-5), .mark 1, .op 0x2A,
    .region { kind := .catching, tryStart := 0, tryEnd := 1, handlerStart := 1, handlerEnd := 1, catchType := none }]

/-- The short branch goes back to the start, and the long one forward to the later mark of its label. -/
theorem emitted_code_read_back_loop : ∃ code regions, (empty.build loopSteps).finish = .ok (code, regions) ∧
    decode code = .ok [⟨0, .ldarg 300⟩, ⟨4, .brtrue 0⟩, ⟨6, .br 13⟩, ⟨11, .ldc (-5)⟩, ⟨13, .ret⟩] ∧
    List.Forall₂ (Placed fun label => lastMark? label empty loopSteps) (loopSteps.filterMap Step.region?) regions := by
  have hsteps : Proper empty loopSteps := by decide_cbv
  have hfinish : (empty.build loopSteps).finish.toBool = true := by decide_cbv
  have hlisting : listing (fun label => (lastMark? label empty loopSteps).getD 0) empty loopSteps =
      [⟨0, .ldarg 300⟩, ⟨4, .brtrue 0⟩, ⟨6, .br 13⟩, ⟨11, .ldc (-5)⟩, ⟨13, .ret⟩] := by decide_cbv
  obtain ⟨-, hread⟩ := emitted_code_read_back loopSteps hsteps (by decide_cbv)
  cases hbody : (empty.build loopSteps).finish with
  | error e =>
      rw [hbody] at hfinish
      cases hfinish
  | ok body =>
      obtain ⟨⟨hdecode, -⟩, hregions⟩ := hread body.1 body.2 hbody
      exact ⟨body.1, body.2, rfl, hlisting ▸ hdecode, hregions⟩

end Emitter
end ManagedCode
