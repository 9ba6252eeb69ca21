/-!
# Opcodes

The opcodes of the stack machine and what each says about its instruction: the kind of
operand it carries, the part it plays in computing a value, whether control may leave
through it, and its mnemonic.
-/

namespace BytecodePatch

/-- The opcodes. Their order is the order of their numbers in a byte image. The unordered
branch is also taken when an operand is no number. -/
inductive Opcode where
  | nop | dup | pop
  | loadArg | storeArg | loadLocal | storeLocal | loadConst | loadString | loadNull
  | loadField | loadFieldAddr | storeField | loadStaticField | storeStaticField
  | call | callVirt | newObj
  | add | sub | mul | div | rem | neg
  | convF32 | convF64 | convI32 | convI64
  | compareEq | compareLt | compareGt
  | branch | branchIfTrue | branchIfFalse | branchEq | branchNe | branchLessThan
  | branchLessThanUnordered | branchLessEq | branchGreaterThan | branchGreaterEq | switch
  | ret | raise
deriving DecidableEq

/-- The kinds of operand. -/
inductive OperandKind where
  | none | literal | symbol | localSlot | argument | target | targets
deriving DecidableEq

def OperandKind.text : OperandKind → String
  | none => "no"
  | literal => "a literal"
  | symbol => "a symbol"
  | localSlot => "a local index"
  | argument => "an argument index"
  | target => "a branch target"
  | targets => "a target table"

/-- The part an instruction plays in computing a value. A producer pushes one value and
takes none; a binary operation takes two and pushes one. -/
inductive StackRole where
  | producer | binaryOp | other
deriving DecidableEq

namespace Opcode

def all : List Opcode :=
  [nop, dup, pop, loadArg, storeArg, loadLocal, storeLocal, loadConst, loadString, loadNull,
    loadField, loadFieldAddr, storeField, loadStaticField, storeStaticField, call, callVirt,
    newObj, add, sub, mul, div, rem, neg, convF32, convF64, convI32, convI64, compareEq,
    compareLt, compareGt, branch, branchIfTrue, branchIfFalse, branchEq, branchNe,
    branchLessThan, branchLessThanUnordered, branchLessEq, branchGreaterThan,
    branchGreaterEq, switch, ret, raise]

def index (opcode : Opcode) : Nat :=
  all.idxOf opcode

def ofIndex? (number : Nat) : Option Opcode :=
  all[number]?

theorem ofIndex?_index (opcode : Opcode) : ofIndex? opcode.index = some opcode := by
  cases opcode <;> rfl

theorem index_lt (opcode : Opcode) : opcode.index < 44 := by
  cases opcode <;> decide

def operandKind : Opcode → OperandKind
  | nop | dup | pop | loadNull => .none
  | add | sub | mul | div | rem | neg => .none
  | convF32 | convF64 | convI32 | convI64 => .none
  | compareEq | compareLt | compareGt => .none
  | ret | raise => .none
  | loadArg | storeArg => .argument
  | loadLocal | storeLocal => .localSlot
  | loadConst | loadString => .literal
  | loadField | loadFieldAddr | storeField | loadStaticField | storeStaticField => .symbol
  | call | callVirt | newObj => .symbol
  | branch | branchIfTrue | branchIfFalse | branchEq | branchNe | branchLessThan => .target
  | branchLessThanUnordered | branchLessEq | branchGreaterThan | branchGreaterEq => .target
  | switch => .targets

def stackRole : Opcode → StackRole
  | loadConst | loadLocal | loadArg => .producer
  | add | sub | mul | div | rem => .binaryOp
  | _ => .other

def isBranch (opcode : Opcode) : Bool :=
  opcode.operandKind == .target || opcode.operandKind == .targets

def isConditionalBranch (opcode : Opcode) : Bool :=
  opcode.isBranch && opcode != branch

def isCall (opcode : Opcode) : Bool :=
  opcode == call || opcode == callVirt

def mnemonic : Opcode → String
  | nop => "nop"
  | dup => "dup"
  | pop => "pop"
  | loadArg => "ldarg"
  | storeArg => "starg"
  | loadLocal => "ldloc"
  | storeLocal => "stloc"
  | loadConst => "ldc"
  | loadString => "ldstr"
  | loadNull => "ldnull"
  | loadField => "ldfld"
  | loadFieldAddr => "ldflda"
  | storeField => "stfld"
  | loadStaticField => "ldsfld"
  | storeStaticField => "stsfld"
  | call => "call"
  | callVirt => "callvirt"
  | newObj => "newobj"
  | add => "add"
  | sub => "sub"
  | mul => "mul"
  | div => "div"
  | rem => "rem"
  | neg => "neg"
  | convF32 => "conv.r4"
  | convF64 => "conv.r8"
  | convI32 => "conv.i4"
  | convI64 => "conv.i8"
  | compareEq => "ceq"
  | compareLt => "clt"
  | compareGt => "cgt"
  | branch => "br"
  | branchIfTrue => "brtrue"
  | branchIfFalse => "brfalse"
  | branchEq => "beq"
  | branchNe => "bne.un"
  | branchLessThan => "blt"
  | branchLessThanUnordered => "blt.un"
  | branchLessEq => "ble"
  | branchGreaterThan => "bgt"
  | branchGreaterEq => "bge"
  | switch => "switch"
  | ret => "ret"
  | raise => "throw"

end Opcode

end BytecodePatch
