import ManagedCode.Heap.Handle

/-! # Faults

A fault is a raised exception: the name of its type, the names of its base types from its own up to the root
type, a message, and the thrown object if there is one. Handlers are chosen by these names. -/

namespace ManagedCode

/-- The exception types the machine knows without a program that defines them. -/
inductive KnownType where
  | object
  | exception
  | systemException
  | applicationException
  | arithmetic
  | divideByZero
  | overflow
  | invalidCast
  | nullReference
  | invalidOperation
  | memberAccess
  | missingMember
  | missingField
  | missingMethod
  deriving DecidableEq, Repr

namespace KnownType

def all : List KnownType :=
  [.object, .exception, .systemException, .applicationException, .arithmetic, .divideByZero, .overflow,
    .invalidCast, .nullReference, .invalidOperation, .memberAccess, .missingMember, .missingField, .missingMethod]

def name : KnownType → String
  | .object => "System.Object"
  | .exception => "System.Exception"
  | .systemException => "System.SystemException"
  | .applicationException => "System.ApplicationException"
  | .arithmetic => "System.ArithmeticException"
  | .divideByZero => "System.DivideByZeroException"
  | .overflow => "System.OverflowException"
  | .invalidCast => "System.InvalidCastException"
  | .nullReference => "System.NullReferenceException"
  | .invalidOperation => "System.InvalidOperationException"
  | .memberAccess => "System.MemberAccessException"
  | .missingMember => "System.MissingMemberException"
  | .missingField => "System.MissingFieldException"
  | .missingMethod => "System.MissingMethodException"

def base? : KnownType → Option KnownType
  | .object => none
  | .exception => some .object
  | .systemException | .applicationException => some .exception
  | .arithmetic | .invalidCast | .nullReference | .invalidOperation | .memberAccess => some .systemException
  | .divideByZero | .overflow => some .arithmetic
  | .missingMember => some .memberAccess
  | .missingField | .missingMethod => some .missingMember

/-- The number of base types above a type. -/
def depth : KnownType → Nat
  | .object => 0
  | .exception => 1
  | .systemException | .applicationException => 2
  | .arithmetic | .invalidCast | .nullReference | .invalidOperation | .memberAccess => 3
  | .divideByZero | .overflow | .missingMember => 4
  | .missingField | .missingMethod => 5

theorem depth_base_lt {t b : KnownType} (h : t.base? = some b) : b.depth < t.depth := by
  cases t <;> cases h <;> decide

/-- The type and its base types, the root type last. -/
def chain (t : KnownType) : List KnownType :=
  match h : t.base? with
  | none => [t]
  | some b =>
      have := depth_base_lt h
      t :: chain b
termination_by t.depth

def ofName? (name : String) : Option KnownType :=
  all.find? fun t => t.name == name

end KnownType

/-- The name of the root type, at which every ancestry ends. -/
def rootTypeName : String := KnownType.object.name

/-- The base names of a type that no program defines; an unknown one stands directly below the root. -/
def builtinAncestry (typeName : String) : List String :=
  match KnownType.ofName? typeName with
  | some t => t.chain.map KnownType.name
  | none => [typeName, rootTypeName]

/-- A raised exception. -/
structure Fault where
  typeName : String
  ancestry : List String
  message : String
  payload : Option Handle := none
  deriving DecidableEq, Repr

namespace Fault

/-- A fault of a type that no program defines. -/
def builtin (typeName message : String) : Fault :=
  { typeName, ancestry := builtinAncestry typeName, message }

/-- The fault of a thrown object whose type has the given ancestry. -/
def ofObject (ancestry : List String) (payload : Handle) : Fault :=
  let typeName := ancestry.head?.getD rootTypeName
  { typeName, ancestry, message := s!"Exception of type '{typeName}' was thrown.", payload := some payload }

/-- Whether a handler declared for `catchType` takes the fault. -/
def isInstanceOf (f : Fault) (catchType : String) : Bool :=
  catchType == rootTypeName || f.ancestry.contains catchType

def text (f : Fault) : String :=
  s!"{f.typeName}: {f.message}"

end Fault
end ManagedCode
