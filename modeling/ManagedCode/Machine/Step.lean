import ManagedCode.Machine.Arithmetic
import ManagedCode.Machine.Call
import ManagedCode.Machine.Unwind

/-! # Steps

One step performs the instruction that the innermost call is at. The operations on the frame alone come first, then
those on the heap, then calls and returns. A failed operation leaves the frame as it was. -/

namespace ManagedCode
namespace Frame

variable (f : Frame)

def load (kind : SlotKind) (index : Nat) : Except Error Frame := do
  let value ← f.getSlot kind index
  return (f.push value).next

def store (kind : SlotKind) (index : Nat) : Except Error Frame := do
  let (value, f) ← f.pop
  let f ← f.setSlot kind index value
  return f.next

def duplicate : Except Error Frame := do
  let value ← f.peek
  return (f.push value).next

def drop : Except Error Frame := do
  let (_, f) ← f.pop
  return f.next

/-- Takes two operands, the lower one first. -/
def popTwo : Except Error (Value × Value × Frame) := do
  let (b, f) ← f.pop
  let (a, f) ← f.pop
  return (a, b, f)

def arithmetic (op : Arithmetic) : Except Error Frame := do
  let (a, b, f) ← f.popTwo
  let x ← a.toInt32
  let y ← b.toInt32
  let result ← op.apply x y
  return (f.push (.int result)).next

def negate : Except Error Frame := do
  let (a, f) ← f.pop
  let x ← a.toInt32
  return (f.push (.int (-x))).next

/-- Pushes one if the relation holds and zero if not. -/
def compare (relation : Relation) : Except Error Frame := do
  let (a, b, f) ← f.popTwo
  let holds ← relation.holds a b
  return (f.push (.int (if holds then 1 else 0))).next

def branchOn (sense : Bool) (target : Nat) : Except Error Frame := do
  let (condition, f) ← f.pop
  if condition.isTruthy = sense then f.jumpTo target else return f.next

def branchIf (relation : Relation) (target : Nat) : Except Error Frame := do
  let (a, b, f) ← f.popTwo
  if ← relation.holds a b then f.jumpTo target else return f.next

/-- Jumps with an empty stack. -/
def leave (target : Nat) : Except Error Frame := do
  let f ← f.jumpTo target
  return { f with stack := [] }

end Frame

namespace Machine

/-- The state after an operation on the frame of the innermost call. -/
def settle (m : Machine) (a : Activation) (below : List Activation) (result : Except Error Frame) : Outcome :=
  match result with
  | .ok frame => .running { m with activations := { a with frame } :: below }
  | .error e => .failed m e

/-! ### Objects -/

def objectOf (instruction : String) (value : Value) : Except Error Handle :=
  match value.asObject? with
  | some h => .ok h
  | none => .error (.fieldOfNoObject instruction value.kindName)

def loadField (p : Program) (m : Machine) (f : Frame) (field : Token) : Except Error Frame := do
  let key ← p.index.fieldKeyOf p.image field
  let (value, f) ← f.pop
  let h ← objectOf "ldfld" value
  let value ← m.heap.readField h key
  return (f.push value).next

def storeField (p : Program) (m : Machine) (f : Frame) (field : Token) : Except Error (Frame × Heap) := do
  let key ← p.index.fieldKeyOf p.image field
  let (value, f) ← f.pop
  let (owner, f) ← f.pop
  let h ← objectOf "stfld" owner
  let heap ← m.heap.writeField h key value
  return (f.next, heap)

/-- The error that throwing a value raises. -/
def raise (p : Program) (m : Machine) (value : Value) : Error :=
  match value with
  | .fault identity fault => .thrown fault (some identity)
  | .null => .throwNull
  | .object h =>
      match m.heap.object h with
      | .ok o => .thrown (.ofObject (p.index.ancestry o.type) h) none
      | .error e => e
  | other => .thrown (.builtin KnownType.exception.name (m.textOf other)) none

/-! ### Calls -/

/-- Starts a call with the arguments taken off the caller's stack. -/
def callWith (p : Program) (config : Config) (m : Machine) (a : Activation) (below : List Activation) (frame : Frame)
    (method : Token) (args : List Value) (use : ResultUse) : Outcome :=
  match enter p config { m with activations := { a with frame } :: below } method args use with
  | .ok m' => .running m'
  | .error e => .failed m e

/-- Performs an intrinsic with the arguments taken off the caller's stack. -/
def intrinsicWith (m : Machine) (a : Activation) (below : List Activation) (frame : Frame) (i : Intrinsic)
    (args : List Value) (use : ResultUse) : Outcome :=
  match m.intrinsic i args with
  | (m, .ok value) => m.settle a below (.ok (if use = .push then (frame.push value).next else frame.next))
  | (m, .error e) => .failed m e

/-- Calls a method of the program or an intrinsic. -/
def call (p : Program) (config : Config) (m : Machine) (a : Activation) (below : List Activation) (token : Token) :
    Outcome :=
  match token.table with
  | .methodDef =>
      match p.index.methodInfo token with
      | .error e => .failed m e
      | .ok info =>
          match a.frame.popArgs info.signature.argCount with
          | .error e => .failed m e
          | .ok (args, frame) => callWith p config m a below frame token args info.signature.resultUse
  | .memberRef =>
      match member with
      | .error e => .failed m e
      | .ok (i, signature, args, frame) => intrinsicWith m a below frame i args signature.resultUse
  | _ => .failed m (.callTarget token)
where
  /-- The intrinsic that a member stands for, with its signature and arguments. -/
  member : Except Error (Intrinsic × Signature × List Value × Frame) := do
    let member ← p.image.memberRef token
    let signature ← p.memberSignature member
    let (args, frame) ← a.frame.popArgs signature.argCount
    match ← p.intrinsicOf member with
    | some i => return (i, signature, args, frame)
    | none => .error (.unsupportedCall (p.memberLabel member))

/-- Where a virtual call leads once its receiver is known. -/
inductive VirtualCall where
  | toIntrinsic (i : Intrinsic)
  | toMethod (receiver : Handle)

/-- What a virtual call does with its arguments, by its receiver. -/
def virtualCall (p : Program) (target : VirtualTarget) (args : List Value) : Except Error VirtualCall := do
  match args.head?.filter fun receiver => !receiver.isNull with
  | none => .error (.nullReceiver target.name)
  | some receiver =>
      let intrinsic ←
        match target.member with
        | some member => p.intrinsicOf member
        | none => .ok none
      match intrinsic, receiver with
      | some i, _ => return .toIntrinsic i
      | none, .object h => return .toMethod h
      | none, other => .error (.foreignReceiver target.name other.kindName)

/-- Calls the method that the type of the receiver has for the target, or an intrinsic. -/
def callVirtual (p : Program) (config : Config) (m : Machine) (a : Activation) (below : List Activation)
    (token : Token) : Outcome :=
  match p.virtualTarget token with
  | .error e => .failed m e
  | .ok none => call p config m a below token
  | .ok (some target) =>
      match a.frame.popArgs target.signature.argCount with
      | .error e => .failed m e
      | .ok (args, frame) =>
          match virtualCall p target args with
          | .error e => .failed m e
          | .ok (.toIntrinsic i) => intrinsicWith m a below frame i args target.signature.resultUse
          | .ok (.toMethod receiver) =>
              match resolveVirtual p m token receiver target.name target.signature.paramCount with
              | (m, .error e) => .failed m e
              | (m, .ok method) => callWith p config m a below frame method args target.signature.resultUse

/-- Makes an object and calls its constructor. The object is on the caller's stack while the constructor runs. -/
def newObject (p : Program) (config : Config) (m : Machine) (a : Activation) (below : List Activation)
    (token : Token) : Outcome :=
  match resolved with
  | .error e => .failed m e
  | .ok (constructor, type, signature, typeName) =>
      match m with
      | { heap, activations, dispatch, console, fresh } =>
          let (heap, made) := heap.allocate type typeName (p.index.fieldKeysOf type)
          let m : Machine := { heap, activations, dispatch, console, fresh }
          match a.frame.popArgs signature.paramCount with
          | .error e => .failed m e
          | .ok (args, frame) =>
              callWith p config m a below (frame.push (.object made)) constructor (.object made :: args)
                .discard
where
  /-- The constructor, the type it makes an object of, its signature and the name of the type. -/
  resolved : Except Error (Token × Token × Signature × String) := do
    let (constructor, type) ← p.index.resolveConstructor p.image token
    let info ← p.index.methodInfo constructor
    let typeName ← p.index.typeName p.image type
    return (constructor, type, info.signature, typeName)

/-! ### Returns -/

/-- Ends the innermost call with its result. -/
def deliver (m : Machine) (use : ResultUse) (below : List Activation) (value : Option Value) : Outcome :=
  match use, below with
  | .host, _ | _, [] => .returned { m with activations := below } value
  | .push, a :: rest =>
      .running { m with activations := { a with frame := (a.frame.push (value.getD .null)).next } :: rest }
  | .discard, a :: rest => .running { m with activations := { a with frame := a.frame.next } :: rest }

/-- Returns the value on top of the stack, if there is one, collecting the young generation on the way. -/
def returnFrom (config : Config) (m : Machine) (a : Activation) (below : List Activation) : Outcome :=
  let value := a.frame.stack.head?
  let m := { m with activations := { a with frame := { a.frame with stack := a.frame.stack.tail } } :: below }
  let m := if config.gcEnabled then m.collectMinor (config.visiting m.heap) value else m
  m.deliver a.use below value

/-! ### Instructions -/

/-- Performs an operation of the innermost call. -/
def perform (p : Program) (config : Config) (m : Machine) (a : Activation) (below : List Activation)
    (op : Operation) : Outcome :=
  let f := a.frame
  let onFrame := m.settle a below
  match op with
  | .nop | .endfinally => onFrame (.ok f.next)
  | .ldarg slot => onFrame (f.load .argument slot.toNat)
  | .starg slot => onFrame (f.store .argument slot.toNat)
  | .ldloc slot => onFrame (f.load .localVariable slot.toNat)
  | .stloc slot => onFrame (f.store .localVariable slot.toNat)
  | .ldnull => onFrame (.ok (f.push .null).next)
  | .ldc value => onFrame (.ok (f.push (.int value)).next)
  | .ldstr token => onFrame ((p.image.userString token).map fun text => (f.push (.str text)).next)
  | .dup => onFrame f.duplicate
  | .pop => onFrame f.drop
  | .arith op => onFrame (f.arithmetic op)
  | .neg => onFrame f.negate
  | .ceq => onFrame (f.compare .eq)
  | .cgt => onFrame (f.compare .gt)
  | .clt => onFrame (f.compare .lt)
  | .br target => onFrame (f.jumpTo target)
  | .brfalse target => onFrame (f.branchOn false target)
  | .brtrue target => onFrame (f.branchOn true target)
  | .branch relation target => onFrame (f.branchIf relation target)
  | .leave target => onFrame (f.leave target)
  | .ldfld field => onFrame (loadField p m f field)
  | .stfld field =>
      match storeField p m f field with
      | .ok (frame, heap) => { m with heap }.settle a below (.ok frame)
      | .error e => .failed m e
  | .throw =>
      match f.pop with
      | .ok (value, _) => .failed m (raise p m value)
      | .error e => .failed m e
  | .call token => call p config m a below token
  | .callvirt token => callVirtual p config m a below token
  | .newobj token => newObject p config m a below token
  | .ret => returnFrom config m a below

/-- One step: performs the next instruction and, if it fails, goes on at a handler. A call that is past its last
instruction returns nothing. -/
def step (p : Program) (config : Config) (m : Machine) : Outcome :=
  match m.activations with
  | [] => .returned m none
  | a :: below =>
      match a.frame.code[a.frame.ip]? with
      | none => m.deliver a.use below none
      | some i =>
          match perform p config m a below i.op with
          | .failed m e => unwind p m e (a :: below)
          | outcome => outcome

end Machine
end ManagedCode
