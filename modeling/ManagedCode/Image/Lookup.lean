import ManagedCode.Image.Basic
import ManagedCode.Error

/-! # Questions to an image

Each question names a row by its token. A token of another table and a row that is not there are different errors,
and the table is looked at first. -/

namespace ManagedCode.Image

/-- The row a token of the given table names; `what` says in errors what was looked for. -/
def rowOf {α : Type} (rows : List α) (token : Token) (table : Table) (what : String) : Except Error α :=
  if token.table = table then
    match token.index?.bind fun i => rows[i]? with
    | some row => .ok row
    | none => .error (.rowOutOfRange token what)
  else .error (.wrongTable token what)

/-- The tokens of the rows that satisfy `p`, in order. -/
def tokensWhere {α : Type} (rows : List α) (table : Table) (p : α → Bool) : List Token :=
  rows.zipIdx.filterMap fun (row, i) => if p row then some (.ofRow table (i + 1)) else none

variable (image : Image)

def method (token : Token) : Except Error MethodDef :=
  rowOf image.methods token .methodDef "method"

def typeDef (token : Token) : Except Error TypeDef :=
  rowOf image.types token .typeDef "type definition"

/-- The entry point, which has to be a method of the program. -/
def entryMethod : Except Error Token :=
  match image.method image.entryPoint with
  | .ok _ => .ok image.entryPoint
  | .error _ => .error (.entryNotAMethod image.entryPoint)

def methodSignature (token : Token) : Except Error Signature :=
  (image.method token).map MethodDef.signature

def methodName (token : Token) : Except Error String :=
  (image.method token).map MethodDef.name

/-- The qualified name of a type that the program defines or refers to. -/
def typeName (token : Token) : Except Error String :=
  match token.table with
  | .typeRef => (rowOf image.typeRefs token .typeRef "type reference").map TypeRef.qualified
  | _ => (image.typeDef token).map TypeDef.qualified

/-- The qualified name of the declared base type. -/
def baseTypeName (token : Token) : Except Error (Option String) :=
  match token.table with
  | .typeRef => .ok none
  | _ => (image.typeDef token).map TypeDef.base

def fieldName (token : Token) : Except Error String :=
  (rowOf image.fields token .field "field").map FieldDef.name

def userString (token : Token) : Except Error String :=
  rowOf image.strings token .userString "user string"

def typeTokens : List Token :=
  image.types.zipIdx.map fun (_, i) => .ofRow .typeDef (i + 1)

def fieldsOf (type : Token) : Except Error (List Token) :=
  (image.typeDef type).map fun _ => tokensWhere image.fields .field fun f => f.owner == type

def methodsOf (type : Token) : Except Error (List Token) :=
  (image.typeDef type).map fun _ => tokensWhere image.methods .methodDef fun m => m.owner == type

def memberRef (token : Token) : Except Error MemberRef :=
  rowOf image.memberRefs token .memberRef "member reference"

end ManagedCode.Image
