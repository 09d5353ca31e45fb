import ManagedCode.Fault
import ManagedCode.Token
import ManagedCode.Image.CodeText

/-! # Errors

Everything that can go wrong, by cause, with the wording in one place. Some errors are catchable: they become a
fault, for which the running methods may have a handler. The others end the run. -/

namespace ManagedCode

/-- Why an operand is of no use to an arithmetic instruction. -/
inductive OperandFault where
  | divideByZero
  | overflow
  | invalidCast
  deriving DecidableEq, Repr

def OperandFault.type : OperandFault → KnownType
  | .divideByZero => .divideByZero
  | .overflow => .overflow
  | .invalidCast => .invalidCast

/-- The two kinds of numbered slots of a frame. -/
inductive SlotKind where
  | argument
  | localVariable
  deriving DecidableEq, Repr

def SlotKind.name : SlotKind → String
  | .argument => "argument"
  | .localVariable => "local"

/-- What is wrong with a method body, or with running it. -/
inductive BodyFlaw where
  | truncated (offset : Nat)
  | targetOutOfRange (offset : Nat) (target : Int)
  | underflow (offset : Nat)
  | tooFewOperands (offset needed available : Nat)
  | described (detail : String)
  deriving DecidableEq, Repr

namespace BodyFlaw

/-- The operand stack held fewer values than an instruction takes. -/
def isUnderflow : BodyFlaw → Bool
  | .underflow _ | .tooFewOperands .. => true
  | _ => false

def message : BodyFlaw → String
  | .truncated offset => s!"instruction at {Text.offsetText offset} is truncated"
  | .targetOutOfRange offset target => s!"branch at {Text.offsetText offset} targets offset {target}"
  | .underflow offset => s!"stack underflow at {Text.offsetText offset}"
  | .tooFewOperands offset needed available =>
      s!"stack underflow at {Text.offsetText offset}: need {needed} values, have {available}"
  | .described detail => detail

end BodyFlaw

/-- Why there is no program image, or no text of one. -/
inductive ImageFlaw where
  | unreadable
  | unreadableConfig
  | code (cause : CodeText.ReadError)
  | numberTooLarge (number : Nat)
  | unmarkedLabel (label : Nat)
  | branchTooFar (delta : Int)
  | undeclaredMethod (method : Token)
  | described (detail : String)
  deriving DecidableEq, Repr

def ImageFlaw.message : ImageFlaw → String
  | .unreadable => "malformed document"
  | .unreadableConfig => "invalid config: malformed document"
  | .code cause => cause.message
  | .numberTooLarge number => s!"{number} is too large for a document"
  | .unmarkedLabel label => s!"label {label} was never marked"
  | .branchTooFar delta => s!"short branch delta {delta} out of range"
  | .undeclaredMethod method => s!"no method declared for {method.text}"
  | .described detail => detail

/-- A failure of any part of the library. A thrown fault that a handler had caught before carries the identity it
was given then. -/
inductive Error where
  | unsupportedInstruction (offset : Nat) (byte : UInt8) (extended : Bool)
  | malformedBody (flaw : BodyFlaw)
  | invalidBranchTarget (offset target : Nat)
  | invalidOperand (fault : OperandFault) (detail : String)
  | nullReference (detail : String)
  | missingField (detail : String)
  | missingMethod (detail : String)
  | arityMismatch (method : String) (expected actual : Nat)
  | unsupportedEntryPoint (detail : String)
  | unsupportedCall (detail : String)
  | stackOverflow (limit : Nat)
  | danglingReference (handle : Handle)
  | metadata (detail : String)
  | thrown (fault : Fault) (identity : Option Nat)
  | image (flaw : ImageFlaw)
  | io (detail : String)
  deriving DecidableEq, Repr

namespace Error

def message : Error → String
  | .unsupportedInstruction offset byte extended =>
      let opcode := (if extended then "0xFE 0x" else "0x") ++ Text.hex 2 byte.toNat
      s!"unsupported instruction {opcode} at {Text.offsetText offset}"
  | .malformedBody flaw => s!"malformed method body: {flaw.message}"
  | .invalidBranchTarget offset target =>
      s!"invalid branch target {Text.offsetText target} from {Text.offsetText offset}"
  | .invalidOperand _ detail => s!"invalid operand: {detail}"
  | .nullReference detail => s!"null reference: {detail}"
  | .missingField detail => s!"missing field: {detail}"
  | .missingMethod detail => s!"missing method: {detail}"
  | .arityMismatch method expected actual =>
      s!"method {method} expects {expected} arguments, received {actual}"
  | .unsupportedEntryPoint detail => s!"unsupported entry point: {detail}"
  | .unsupportedCall detail => s!"unsupported call target: {detail}"
  | .stackOverflow limit => s!"call depth limit of {limit} exceeded"
  | .danglingReference handle => s!"dangling object reference {handle.text}"
  | .metadata detail => s!"metadata error: {detail}"
  | .thrown fault _ => s!"unhandled exception: {fault.text}"
  | .image flaw => s!"program image error: {flaw.message}"
  | .io detail => detail

/-- The fault that handlers see, of a catchable error. -/
def toFault? : Error → Option Fault
  | .thrown fault _ => some fault
  | .nullReference detail => some (.builtin KnownType.nullReference.name detail)
  | .invalidOperand fault detail => some (.builtin fault.type.name detail)
  | .missingField detail => some (.builtin KnownType.missingField.name detail)
  | .missingMethod detail => some (.builtin KnownType.missingMethod.name detail)
  | _ => none

def isCatchable (e : Error) : Bool :=
  e.toFault?.isSome

/-! ### Operands -/

def divideByZero : Error :=
  .invalidOperand .divideByZero "attempted to divide by zero"

def overflow : Error :=
  .invalidOperand .overflow "arithmetic operation resulted in an overflow"

/-- A value of the named kind where an integer is needed. -/
def notAnInteger (kind : String) : Error :=
  .invalidOperand .invalidCast s!"cannot convert {kind} to int32"

/-! ### Null and foreign receivers -/

def throwNull : Error :=
  .nullReference "throw null"

def nullReceiver (method : String) : Error :=
  .nullReference s!"callvirt {method} on null instance"

/-- A field instruction applied to a value of the named kind. -/
def fieldOfNoObject (instruction kind : String) : Error :=
  .nullReference s!"{instruction} on a {kind} value"

def foreignReceiver (method kind : String) : Error :=
  .unsupportedCall s!"callvirt {method} on a {kind} receiver"

/-! ### Names that do not resolve -/

def fieldNotPresent (key typeName : String) : Error :=
  .missingField s!"field '{key}' is not present on '{typeName}'"

def virtualNotFound (typeName method : String) (paramCount : Nat) : Error :=
  .missingMethod s!"virtual target not found: {typeName}::{method}({paramCount})"

def constructorNotFound (typeName : String) (paramCount : Nat) : Error :=
  .missingMethod s!"{typeName}::.ctor({paramCount})"

def wrongTable (token : Token) (what : String) : Error :=
  .metadata s!"token {token.text} is not a {what}"

def rowOutOfRange (token : Token) (what : String) : Error :=
  .metadata s!"{what} token {token.text} is out of range"

def undefinedMethod (method : Token) : Error :=
  .metadata s!"method {method.text} is not defined in this program"

def undeclaredConstructor (method : Token) : Error :=
  .metadata s!"could not resolve declaring type for constructor {method.text}"

def notAField (token : Token) : Error :=
  .metadata s!"{token.text} is not a field token"

/-! ### Targets that cannot be called -/

def callTarget (token : Token) : Error :=
  .unsupportedCall s!"call target {token.text}"

def callvirtTarget (token : Token) : Error :=
  .unsupportedCall s!"callvirt target {token.text}"

def newobjTarget (token : Token) : Error :=
  .unsupportedCall s!"unsupported newobj target {token.text}"

def notAConstructor (name : String) : Error :=
  .unsupportedCall s!"newobj target {name} is not a constructor"

def foreignConstructor (typeName : String) : Error :=
  .unsupportedCall s!"constructor of {typeName} is not defined in this program"

/-- A member, by its label, that has no signature. -/
def notAMethod (label : String) : Error :=
  .unsupportedCall s!"{label} is not a method"

/-! ### Entry points -/

def entryNotAMethod (token : Token) : Error :=
  .unsupportedEntryPoint s!"{token.text} is not a method definition"

def entryOnInstance (token : Token) : Error :=
  .unsupportedEntryPoint s!"entry point {token.text} is an instance method"

def entryParameters (count : Nat) : Error :=
  .unsupportedEntryPoint s!"entry point with {count} parameters is not supported"

end Error
end ManagedCode
