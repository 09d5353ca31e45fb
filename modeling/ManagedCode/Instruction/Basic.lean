import ManagedCode.Token

/-! # Instructions

An operation carries the operand it needs, so the several encodings of one operation (with the operand in the
opcode, in one byte or in more) are the same here. Branch targets are absolute positions in the body. -/

namespace ManagedCode

/-- The binary integer operations. -/
inductive Arithmetic where
  | add
  | sub
  | mul
  | div
  | rem
  deriving DecidableEq, Repr

def Arithmetic.name : Arithmetic → String
  | .add => "add"
  | .sub => "sub"
  | .mul => "mul"
  | .div => "div"
  | .rem => "rem"

/-- The relations a branch can test. -/
inductive Relation where
  | eq
  | ge
  | gt
  | le
  | lt
  | ne
  deriving DecidableEq, Repr

/-- The name of the branch that tests a relation. -/
def Relation.branchName : Relation → String
  | .eq => "beq"
  | .ge => "bge"
  | .gt => "bgt"
  | .le => "ble"
  | .lt => "blt"
  | .ne => "bne.un"

/-- An operation of the stack machine with its operand. -/
inductive Operation where
  | nop
  | ldarg (slot : UInt16)
  | starg (slot : UInt16)
  | ldloc (slot : UInt16)
  | stloc (slot : UInt16)
  | ldnull
  | ldc (value : Int32)
  | ldstr (string : Token)
  | dup
  | pop
  | call (method : Token)
  | callvirt (method : Token)
  | newobj (constructor : Token)
  | ret
  | br (target : Nat)
  | brfalse (target : Nat)
  | brtrue (target : Nat)
  | branch (relation : Relation) (target : Nat)
  | leave (target : Nat)
  | arith (op : Arithmetic)
  | neg
  | ceq
  | cgt
  | clt
  | throw
  | ldfld (field : Token)
  | stfld (field : Token)
  | endfinally
  deriving DecidableEq, Repr

/-- An operand by itself. -/
inductive Operand where
  | int (value : Int32)
  | index (slot : UInt16)
  | target (offset : Nat)
  | token (token : Token)
  deriving DecidableEq, Repr

def Operand.text : Operand → String
  | .int value => toString value.toInt
  | .index slot => toString slot.toNat
  | .target offset => Text.offsetText offset
  | .token t => t.text

namespace Operation

def name : Operation → String
  | .nop => "nop"
  | .ldarg _ => "ldarg"
  | .starg _ => "starg"
  | .ldloc _ => "ldloc"
  | .stloc _ => "stloc"
  | .ldnull => "ldnull"
  | .ldc _ => "ldc.i4"
  | .ldstr _ => "ldstr"
  | .dup => "dup"
  | .pop => "pop"
  | .call _ => "call"
  | .callvirt _ => "callvirt"
  | .newobj _ => "newobj"
  | .ret => "ret"
  | .br _ => "br"
  | .brfalse _ => "brfalse"
  | .brtrue _ => "brtrue"
  | .branch relation _ => relation.branchName
  | .leave _ => "leave"
  | .arith op => op.name
  | .neg => "neg"
  | .ceq => "ceq"
  | .cgt => "cgt"
  | .clt => "clt"
  | .throw => "throw"
  | .ldfld _ => "ldfld"
  | .stfld _ => "stfld"
  | .endfinally => "endfinally"

def operand? : Operation → Option Operand
  | .ldarg slot | .starg slot | .ldloc slot | .stloc slot => some (.index slot)
  | .ldc value => some (.int value)
  | .ldstr token | .call token | .callvirt token | .newobj token | .ldfld token | .stfld token =>
      some (.token token)
  | .br target | .brfalse target | .brtrue target | .branch _ target | .leave target => some (.target target)
  | _ => none

/-- The position the operation may jump to. -/
def target? : Operation → Option Nat
  | .br target | .brfalse target | .brtrue target | .branch _ target | .leave target => some target
  | _ => none

end Operation

/-- An operation at a position of a body. The positions and targets of decoded instructions are words of 32 bits. -/
structure Instruction where
  offset : Nat
  op : Operation
  deriving DecidableEq, Repr

def Instruction.text (i : Instruction) : String :=
  let operand := (i.op.operand?.map fun o => " " ++ o.text).getD ""
  s!"{Text.offsetText i.offset}: {i.op.name}{operand}"

end ManagedCode
