import ManagedCode.Signature
import ManagedCode.Region

/-! # Program images

An image describes a program as flat tables. The rows of a table are numbered from one by their place in it, and
tokens refer to them by table and row. -/

namespace ManagedCode

/-- A type the program defines; its base is given by qualified name. -/
structure TypeDef where
  space : String := ""
  name : String
  base : Option String := none
  deriving DecidableEq, Repr

/-- A type the program uses and does not define. -/
structure TypeRef where
  space : String := ""
  name : String
  deriving DecidableEq, Repr

structure FieldDef where
  owner : Token
  name : String
  deriving DecidableEq, Repr

structure MethodDef where
  owner : Token
  name : String
  signature : Signature := {}
  locals : Nat := 0
  code : List UInt8 := []
  regions : List Region := []
  deriving DecidableEq, Repr

/-- A member of another type. References to methods have a signature, references to fields have none. -/
structure MemberRef where
  parent : Token
  name : String
  signature : Option Signature := none
  deriving DecidableEq, Repr

/-- A program as its tables. -/
structure Image where
  name : String := ""
  entryPoint : Token
  types : List TypeDef := []
  typeRefs : List TypeRef := []
  fields : List FieldDef := []
  methods : List MethodDef := []
  memberRefs : List MemberRef := []
  strings : List String := []
  deriving DecidableEq, Repr

/-- A simple name in its namespace, the empty one leaving no trace. -/
def qualifiedName (space name : String) : String :=
  if space.isEmpty then name else s!"{space}.{name}"

def TypeDef.qualified (t : TypeDef) : String := qualifiedName t.space t.name

def TypeRef.qualified (t : TypeRef) : String := qualifiedName t.space t.name

end ManagedCode
