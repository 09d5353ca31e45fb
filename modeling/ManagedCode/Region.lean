import ManagedCode.Token

/-! # Protected regions

A region protects a range of a method body and names the position of its handler. Positions and lengths are words of
32 bits. -/

namespace ManagedCode

/-- A catching region takes faults raised in its range; a finalizing region is recorded and never entered. -/
inductive RegionKind where
  | catching
  | finalizing
  deriving DecidableEq, Repr

/-- A range of a body and its handler. Without a catch type, or with a nil one, every fault is taken. -/
structure Region where
  kind : RegionKind
  tryOffset : UInt32
  tryLength : UInt32
  handlerOffset : UInt32
  handlerLength : UInt32 := 0
  catchType : Option Token := none
  deriving DecidableEq, Repr

/-- Whether the instruction at `offset` lies in the protected range. -/
def Region.covers (r : Region) (offset : Nat) : Bool :=
  r.tryOffset.toNat ≤ offset && offset - r.tryOffset.toNat < r.tryLength.toNat

end ManagedCode
