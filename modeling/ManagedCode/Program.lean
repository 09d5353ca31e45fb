import ManagedCode.Resolution
import ManagedCode.Instruction.Decode
import ManagedCode.Instruction.Verify

/-! # Programs

A program is an image with its index and an entry point that can be run: a static method of at most one
parameter. -/

namespace ManagedCode

structure Program where
  image : Image
  index : Index
  entryPoint : Token
  entrySignature : Signature
  deriving DecidableEq, Repr

namespace Program

def load (image : Image) : Except Error Program := do
  let index ← Index.build image
  let entryPoint ← image.entryMethod
  let info ← index.methodInfo entryPoint
  if info.signature.isInstance then .error (.entryOnInstance entryPoint)
  else if 1 < info.signature.paramCount then .error (.entryParameters info.signature.paramCount)
  else .ok { image, index, entryPoint, entrySignature := info.signature }

/-- The decoded and verified body of a method. -/
def verifiedBody (signature : Signature) (m : MethodDef) : Except Error (List Instruction) := do
  let code ← decode m.code
  match (Verifier.mk signature.argCount m.locals).verify code m.regions with
  | .ok () => .ok code
  | .error e => .error e.toError

/-- Decodes and verifies one method of the program. -/
def checkMethod (p : Program) (token : Token) : Except Error Unit := do
  let info ← p.index.methodInfo token
  let m ← p.image.method token
  let _ ← verifiedBody info.signature m

/-- Decodes and verifies the methods of every type, and counts them. -/
def check (p : Program) : Except Error Nat := do
  let counts ← p.image.typeTokens.mapM fun type => do
    let methods ← p.image.methodsOf type
    methods.forM p.checkMethod
    return methods.length
  return counts.foldl (fun total count => total + count) 0

end Program
end ManagedCode
