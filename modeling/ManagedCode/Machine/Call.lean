import ManagedCode.Machine.State
import ManagedCode.Intrinsic

/-! # Calls

Entering a method checks, in this order, that it is one of the program, that it is given as many arguments as it has
slots for them, that there is room for one more call, and that its body can be decoded (and verified, if the
configuration says so). -/

namespace ManagedCode

/-- The frame of a call of a method with a known signature. -/
def Program.frameFor (p : Program) (config : Config) (method : Token) (signature : Signature) (args : List Value) :
    Except Error Frame := do
  let m ← p.image.method method
  let code ← if config.verifyBodies then Program.verifiedBody signature m else decode m.code
  return .start method code m.regions args m.locals

namespace Machine

/-- Starts a call. -/
def enter (p : Program) (config : Config) (m : Machine) (method : Token) (args : List Value) (use : ResultUse) :
    Except Error Machine := do
  let info ← p.index.methodInfo method
  if args.length ≠ info.signature.argCount then
    .error (.arityMismatch info.name info.signature.argCount args.length)
  else if config.maxCallDepth ≤ m.callDepth then .error (.stackOverflow config.maxCallDepth)
  else
    let frame ← p.frameFor config method info.signature args
    return { m with activations := ⟨frame, use⟩ :: m.activations }

end Machine

/-! ### Members of other types -/

/-- A member by its type and name, the token standing for a type without a name. -/
def Program.memberLabel (p : Program) (member : MemberRef) : String :=
  let owner :=
    match p.index.typeName p.image member.parent with
    | .ok name => name
    | .error _ => member.parent.text
  s!"{owner}::{member.name}"

/-- The signature of a member, which has to be a method. -/
def Program.memberSignature (p : Program) (member : MemberRef) : Except Error Signature :=
  match member.signature with
  | some signature => .ok signature
  | none => .error (.notAMethod (p.memberLabel member))

/-- The intrinsic that a member of a foreign type stands for. -/
def Program.intrinsicOf (p : Program) (member : MemberRef) : Except Error (Option Intrinsic) :=
  match member.parent.table with
  | .typeRef => do
      let typeName ← p.index.typeName p.image member.parent
      return Intrinsic.ofMember? typeName member.name
  | _ => .ok none

namespace Machine

/-- Performs an intrinsic. A line that the console does not take is an error, with what it took written. -/
def intrinsic (m : Machine) (i : Intrinsic) (args : List Value) : Machine × Except Error Value :=
  let texts := args.map m.textOf
  match i with
  | .writeLine =>
      match m with
      | { heap, activations, dispatch, console, fresh } =>
          let (console, result) := console.writeLine (" ".intercalate texts)
          ({ heap, activations, dispatch, console, fresh }, result.map fun _ => .null)
  | .concat => (m, .ok (.str (String.join texts)))

end Machine

/-- What a virtual call needs of its token. -/
structure VirtualTarget where
  name : String
  signature : Signature
  member : Option MemberRef

/-- The target of a virtual call; a static method of the program has none and is called as it is. -/
def Program.virtualTarget (p : Program) (token : Token) : Except Error (Option VirtualTarget) :=
  match token.table with
  | .methodDef => do
      let info ← p.index.methodInfo token
      if info.signature.isInstance then
        return some { name := info.name, signature := info.signature, member := none }
      else return none
  | .memberRef => do
      let member ← p.image.memberRef token
      let signature ← p.memberSignature member
      return some { name := member.name, signature, member := some member }
  | _ => .error (.callvirtTarget token)

/-- The method that a virtual call at `site` runs on an object, by the memo if it has one. -/
def Machine.resolveVirtual (p : Program) (m : Machine) (site : Token) (receiver : Handle) (name : String)
    (paramCount : Nat) : Machine × Except Error Token :=
  match m.heap.object receiver with
  | .error e => (m, .error e)
  | .ok o =>
      match m.dispatch.lookup site o.type with
      | (dispatch, some target) => ({ m with dispatch }, .ok target)
      | (dispatch, none) =>
          match p.index.resolveVirtual? o.type name paramCount with
          | some target => ({ m with dispatch := dispatch.insert site o.type target }, .ok target)
          | none => ({ m with dispatch }, .error (.virtualNotFound o.typeName name paramCount))

end ManagedCode
