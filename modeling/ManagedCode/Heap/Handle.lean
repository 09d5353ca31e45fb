/-! # Object handles -/

namespace ManagedCode

/-- A reference to a heap object: the slot it lives in and the epoch of the slot when it was issued. A slot that is
emptied moves to its next epoch, so a handle to a former occupant is told apart from one to the present. An index is a
word of 32 bits as long as fewer than 2^32 objects are made. -/
structure Handle where
  index : Nat
  epoch : UInt32
  deriving DecidableEq, Repr

def Handle.text (h : Handle) : String :=
  "obj#" ++ toString h.index

end ManagedCode
