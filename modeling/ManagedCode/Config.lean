import ManagedCode.Heap.Collect

/-! # Configuration -/

namespace ManagedCode

/-- The settings of a run: the deepest nesting of calls, whether returns collect the young generation, whether the
command line reports what the heap did, and whether bodies are verified before they run. The order in which a
collection visits what it finds is none of the program's affair, and may be another for each heap. -/
structure Config where
  maxCallDepth : Nat := 256
  gcEnabled : Bool := true
  gcStats : Bool := false
  verifyBodies : Bool := false
  visiting : Heap → Traversal := fun _ => .stored

end ManagedCode
