import ManagedCode.Fault

/-! # Values

What stacks, slots and fields hold. Integers and strings are compared by content. Objects, caught faults and lists
have an identity: an object by its handle, the other two by the number they were made under. -/

namespace ManagedCode

inductive Value where
  | null
  | int (n : Int32)
  | str (text : String)
  | object (handle : Handle)
  | fault (identity : Nat) (fault : Fault)
  | list (identity : Nat) (items : List String)
  deriving DecidableEq, Repr, Inhabited

namespace Value

def asInt? : Value → Option Int32
  | .int n => some n
  | _ => none

def asObject? : Value → Option Handle
  | .object h => some h
  | _ => none

/-- The object that a value keeps alive. -/
def heapRef? : Value → Option Handle
  | .object h => some h
  | .fault _ f => f.payload
  | _ => none

def isNull : Value → Bool
  | .null => true
  | _ => false

/-- Null and zero are false, all else is true. -/
def isTruthy : Value → Bool
  | .null => false
  | .int n => n != 0
  | _ => true

def kindName : Value → String
  | .null => "null"
  | .int _ => "int32"
  | .str _ => "string"
  | .object _ => "object"
  | .fault .. => "exception"
  | .list .. => "string[]"

/-- Whether two values are equal to a program. -/
def same : Value → Value → Bool
  | .null, .null => true
  | .int a, .int b => a == b
  | .str a, .str b => a == b
  | .object a, .object b => a == b
  | .fault a _, .fault b _ => a == b
  | .list a _, .list b _ => a == b
  | _, _ => false

def text : Value → String
  | .null => ""
  | .int n => toString n.toInt
  | .str s => s
  | .object h => h.text
  | .fault _ f => f.text
  | .list .. => "System.String[]"

end Value
end ManagedCode
