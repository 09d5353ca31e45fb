/-! # Method signatures -/

namespace ManagedCode

/-- What a call needs to know of a method: its declared parameters, whether it takes a receiver before them, and
whether it leaves a value. -/
structure Signature where
  paramCount : Nat := 0
  isInstance : Bool := false
  returnsVoid : Bool := false
  deriving DecidableEq, Repr, Inhabited

/-- Counts are machine words. -/
def countLimit : Nat := 0x10000000000000000

/-- The number of argument slots, the receiver included. -/
def Signature.argCount (s : Signature) : Nat :=
  (s.paramCount + if s.isInstance then 1 else 0) % countLimit

end ManagedCode
