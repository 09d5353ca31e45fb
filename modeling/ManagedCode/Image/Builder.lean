import ManagedCode.Image.Basic
import ManagedCode.Instruction.Emitter

/-! # Building images

Rows are added one at a time, each answering with its token, so that a body can refer to methods that are declared
after it. Bases and bodies are filled in later, by the row that a token names; the table of the token is not looked
at. -/

namespace ManagedCode.Image.Builder

/-- The image without rows. -/
def empty : Image := { entryPoint := ⟨0⟩ }

variable (image : Image)

def addType (space name : String) : Image × Token :=
  ({ image with types := image.types ++ [{ space, name }] }, .ofRow .typeDef (image.types.length + 1))

def addTypeRef (space name : String) : Image × Token :=
  ({ image with typeRefs := image.typeRefs ++ [{ space, name }] }, .ofRow .typeRef (image.typeRefs.length + 1))

def addField (owner : Token) (name : String) : Image × Token :=
  ({ image with fields := image.fields ++ [{ owner, name }] }, .ofRow .field (image.fields.length + 1))

/-- Declares a method with an empty body. -/
def addMethod (owner : Token) (name : String) (signature : Signature) : Image × Token :=
  ({ image with methods := image.methods ++ [{ owner, name, signature }] },
    .ofRow .methodDef (image.methods.length + 1))

def addMemberRef (parent : Token) (name : String) (signature : Option Signature) : Image × Token :=
  ({ image with memberRefs := image.memberRefs ++ [{ parent, name, signature }] },
    .ofRow .memberRef (image.memberRefs.length + 1))

def addString (text : String) : Image × Token :=
  ({ image with strings := image.strings ++ [text] }, .ofRow .userString (image.strings.length + 1))

def setEntryPoint (method : Token) : Image :=
  { image with entryPoint := method }

/-- Gives the type in the row of `type` a base; without such a row nothing changes. -/
def setBase (type : Token) (base : String) : Image :=
  match type.index? with
  | some i => { image with types := image.types.modify i fun t => { t with base := some base } }
  | none => image

/-- Gives the method in the row of `method` the finished body. -/
def setBody (method : Token) (locals : Nat) (body : Emitter) : Except Error Image := do
  let (code, regions) ← body.finish
  match method.index? with
  | some i =>
      if i < image.methods.length then
        return { image with methods := image.methods.modify i fun m => { m with locals, code, regions } }
      else .error (.image (.undeclaredMethod method))
  | none => .error (.image (.undeclaredMethod method))

end ManagedCode.Image.Builder
