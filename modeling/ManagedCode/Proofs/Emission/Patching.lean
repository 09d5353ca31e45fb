import ManagedCode.Instruction.Emitter
import ManagedCode.Proofs.Computations

/-! Bodies without patches. The bytes of an emitter are pieces: those that are known at once, and branches, which are
written with zeros in place of their distance. Putting in the distances one after another gives the code that writing
the pieces anew gives, each branch with its distance from the start. -/

namespace ManagedCode

/-- A piece of a body. -/
inductive Piece where
  | bytes (bytes : List UInt8)
  | branch (opcode : UInt8) (label : Nat)
  deriving DecidableEq, Repr

/-- The distance that is to be put into a branch which ends at `next`. -/
def branchFixup (next : Nat) (opcode : UInt8) (label : Nat) : Fixup where
  start := next - if !isShortBranch opcode then 4 else 1
  next := next
  label := label
  wide := !isShortBranch opcode

namespace Piece

def size : Piece → Nat
  | .bytes b => b.length
  | .branch opcode _ => if isShortBranch opcode then 2 else 5

/-- The bytes of the piece before the distances are put in. -/
def blank : Piece → List UInt8
  | .bytes b => b
  | .branch opcode _ => opcode :: List.replicate (if !isShortBranch opcode then 4 else 1) 0

/-- The distance that is to be put into a piece which ends at `next`. -/
def fixup? (next : Nat) : Piece → Option Fixup
  | .bytes _ => none
  | .branch opcode label => some (branchFixup next opcode label)

/-- The distances that are to be put into the pieces from the position `start` on. -/
def fixups (start : Nat) : List Piece → List Fixup
  | [] => []
  | piece :: rest => (piece.fixup? (start + piece.size)).toList ++ fixups (start + piece.size) rest

theorem length_blank (piece : Piece) : piece.blank.length = piece.size := by
  cases piece with
  | bytes b => rfl
  | branch opcode label =>
      rw [blank, size, List.length_cons, List.length_replicate]
      cases isShortBranch opcode <;> rfl

theorem fixups_append (start : Nat) (pieces : List Piece) (piece : Piece) :
    fixups start (pieces ++ [piece]) =
      fixups start pieces ++ (piece.fixup? (start + (pieces.flatMap blank).length + piece.size)).toList := by
  induction pieces generalizing start with
  | nil => exact List.append_nil _
  | cons first rest ih =>
      rw [List.cons_append, fixups, fixups, ih, List.flatMap_cons, List.length_append, length_blank, List.append_assoc,
        Nat.add_assoc start]

end Piece

namespace Emitter

variable {e E : Emitter}

/-! ### Pieces of an emitter -/

/-- The bytes of the emitter are those of the pieces, and their distances are to be put in. -/
structure Written (pieces : List Piece) (e : Emitter) : Prop where
  code : e.code = pieces.flatMap Piece.blank
  fixups : e.fixups = Piece.fixups 0 pieces

theorem Written.empty : Written [] empty :=
  ⟨rfl, rfl⟩

theorem Written.emit {pieces : List Piece} (h : e.Written pieces) (bytes : List UInt8) :
    (e.emit bytes).Written (pieces ++ [.bytes bytes]) where
  code := by
    rw [List.flatMap_append, ← h.code, List.flatMap_singleton]
    rfl
  fixups := by
    rw [Piece.fixups_append, ← h.fixups]
    exact (List.append_nil _).symm

theorem Written.branch {pieces : List Piece} (h : e.Written pieces) (opcode : UInt8) (label : Nat) :
    (e.branch opcode label).Written (pieces ++ [.branch opcode label]) where
  code := by
    rw [List.flatMap_append, ← h.code, List.flatMap_singleton]
    exact List.append_assoc _ _ _
  fixups := by
    rw [Piece.fixups_append, ← h.fixups, ← h.code]
    simp only [Emitter.branch, op, Emitter.emit, offset, Piece.fixup?, branchFixup, Piece.size, Option.toList_some,
      List.length_append, List.length_singleton, List.length_replicate, Nat.zero_add]
    cases isShortBranch opcode <;> rfl

/-! ### Writing the pieces anew -/

/-- The bytes of a piece that ends at `next`. -/
def assemblePiece (e : Emitter) (next : Nat) : Piece → Except Error (List UInt8)
  | .bytes bytes => .ok bytes
  | .branch opcode label => do
      let target ← e.position label
      let bytes ← distance (branchFixup next opcode label) target
      return opcode :: bytes

/-- The bytes of the pieces from the position `start` on. -/
def assemble (e : Emitter) (start : Nat) : List Piece → Except Error (List UInt8)
  | [] => .ok []
  | piece :: rest => do
      let bytes ← e.assemblePiece (start + piece.size) piece
      let others ← e.assemble (start + piece.size) rest
      return bytes ++ others

theorem length_distance {fixup : Fixup} {target : Nat} {bytes : List UInt8} (h : distance fixup target = .ok bytes) :
    bytes.length = if fixup.wide then 4 else 1 := by
  simp only [distance] at h
  split at h
  · next hwide =>
    cases h
    rw [if_pos hwide]
    rfl
  · next hwide =>
    split at h <;> cases h
    rw [if_neg hwide]
    rfl

theorem length_assemblePiece {next : Nat} {piece : Piece} {bytes : List UInt8}
    (h : E.assemblePiece next piece = .ok bytes) : bytes.length = piece.size := by
  cases piece with
  | bytes b =>
      cases h
      rfl
  | branch opcode label =>
      obtain ⟨target, -, h⟩ := bind_eq_ok_iff.1 h
      obtain ⟨distance, hdistance, h⟩ := bind_eq_ok_iff.1 h
      cases h
      rw [List.length_cons, length_distance hdistance, Piece.size, branchFixup]
      cases isShortBranch opcode <;> rfl

theorem overwrite_middle (front middle rest bytes : List UInt8) (h : bytes.length = middle.length) :
    overwrite (front ++ middle ++ rest) front.length bytes = front ++ bytes ++ rest := by
  rw [overwrite, h, ← List.length_append, List.drop_left, List.append_assoc front middle, List.take_left]

/-- Putting the distance of a piece into its blank bytes gives the bytes of the piece. -/
theorem patch_blank (front rest : List UInt8) (piece : Piece) :
    (piece.fixup? (front.length + piece.size)).toList.foldlM E.patch (front ++ piece.blank ++ rest) =
      (E.assemblePiece (front.length + piece.size) piece).map fun bytes => front ++ bytes ++ rest := by
  cases piece with
  | bytes b => rfl
  | branch opcode label =>
      generalize hnext : front.length + (Piece.branch opcode label).size = next
      have hstart : (branchFixup next opcode label).start = (front ++ [opcode]).length := by
        rw [branchFixup, ← hnext, Piece.size, List.length_append, List.length_singleton]
        cases isShortBranch opcode <;> rfl
      have hsplit : front ++ (Piece.branch opcode label).blank ++ rest =
          front ++ [opcode] ++ List.replicate (if !isShortBranch opcode then 4 else 1) 0 ++ rest := by
        rw [Piece.blank, List.append_assoc front [opcode]]
        rfl
      rw [Piece.fixup?, Option.toList_some, List.foldlM_cons, patch, assemblePiece, hstart, hsplit]
      change (E.position label >>= _) >>= _ = (E.position label >>= _).map _
      cases E.position label with
      | error err => rfl
      | ok target =>
          change (distance (branchFixup next opcode label) target >>= _) >>= _ =
            (distance (branchFixup next opcode label) target >>= _).map _
          cases hdistance : distance (branchFixup next opcode label) target with
          | error err => rfl
          | ok bytes =>
              have hlength : bytes.length =
                  (List.replicate (if !isShortBranch opcode then 4 else 1) (0 : UInt8)).length := by
                rw [length_distance hdistance, List.length_replicate]
                rfl
              change Except.ok (overwrite _ _ bytes) = Except.ok (front ++ (opcode :: bytes) ++ rest)
              rw [overwrite_middle _ _ _ _ hlength, List.append_assoc front [opcode]]
              rfl

/-- The distances of the pieces behind finished bytes are put in one after another. -/
theorem foldlM_patch (front : List UInt8) (pieces : List Piece) :
    (Piece.fixups front.length pieces).foldlM E.patch (front ++ pieces.flatMap Piece.blank) =
      (E.assemble front.length pieces).map (front ++ ·) := by
  induction pieces generalizing front with
  | nil => rfl
  | cons piece rest ih =>
      rw [Piece.fixups, List.foldlM_append, List.flatMap_cons, ← List.append_assoc, patch_blank, assemble]
      cases hbytes : E.assemblePiece (front.length + piece.size) piece with
      | error err => rfl
      | ok bytes =>
          have hfront : front.length + piece.size = (front ++ bytes).length := by
            rw [List.length_append, length_assemblePiece hbytes]
          rw [hfront]
          refine (ih (front ++ bytes)).trans ?_
          simp only [bind, Except.bind, pure, Except.pure]
          cases E.assemble (front ++ bytes).length rest with
          | error err => rfl
          | ok others => exact congrArg Except.ok (List.append_assoc front bytes others)

/-- **Patching gives what writing the pieces anew gives.** -/
theorem Written.foldlM_patch {pieces : List Piece} (h : E.Written pieces) :
    E.fixups.foldlM E.patch E.code = E.assemble 0 pieces := by
  rw [h.code, h.fixups]
  refine (Emitter.foldlM_patch [] pieces).trans ?_
  cases E.assemble 0 pieces <;> rfl

end Emitter
end ManagedCode
