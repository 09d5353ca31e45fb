/-! # Intrinsics

The library methods that the machine performs itself. -/

namespace ManagedCode

/-- `writeLine` prints its arguments with a space between them; `concat` joins them. Null is the empty text. -/
inductive Intrinsic where
  | writeLine
  | concat
  deriving DecidableEq, Repr

namespace Intrinsic

def ofMember? (typeName method : String) : Option Intrinsic :=
  if typeName = "System.Console" ∧ method = "WriteLine" then some .writeLine
  else if typeName = "System.String" ∧ method = "Concat" then some .concat
  else none

def name : Intrinsic → String
  | .writeLine => "System.Console::WriteLine"
  | .concat => "System.String::Concat"

end Intrinsic
end ManagedCode
