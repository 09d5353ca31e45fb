import ManagedCode.Instruction.Basic
import ManagedCode.Value
import ManagedCode.Error

/-! # Integer operations

Arithmetic is on 32-bit integers that wrap around; null counts as zero. Division goes toward zero, and fails on a
zero divisor and on the one quotient that does not fit. Equality compares any two values, the other relations only
integers. -/

namespace ManagedCode

/-- The integer that an instruction takes a value for. -/
def Value.toInt32 : Value → Except Error Int32
  | .int n => .ok n
  | .null => .ok 0
  | other => .error (.notAnInteger other.kindName)

/-- Whether a quotient is defined and fits. -/
def checkDivision (a b : Int32) : Except Error Unit :=
  if b = 0 then .error .divideByZero
  else if a = Int32.minValue ∧ b = -1 then .error .overflow
  else .ok ()

def Arithmetic.apply (op : Arithmetic) (a b : Int32) : Except Error Int32 :=
  match op with
  | .add => .ok (a + b)
  | .sub => .ok (a - b)
  | .mul => .ok (a * b)
  | .div => (checkDivision a b).map fun _ => a / b
  | .rem => (checkDivision a b).map fun _ => a % b

/-- Whether two values are in a relation. -/
def Relation.holds (relation : Relation) (a b : Value) : Except Error Bool :=
  match relation with
  | .eq => .ok (a.same b)
  | .ne => .ok (!a.same b)
  | .gt => integers fun x y => decide (y < x)
  | .lt => integers fun x y => decide (x < y)
  | .ge => integers fun x y => decide (y ≤ x)
  | .le => integers fun x y => decide (x ≤ y)
where
  integers (test : Int32 → Int32 → Bool) : Except Error Bool := do
    let x ← a.toInt32
    let y ← b.toInt32
    return test x y

end ManagedCode
