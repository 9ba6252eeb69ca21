import BytecodePatch.Code.Basic

/-!
# Insertion

Every insertion checks the instruction, issues the next slot and links the instruction in
before another one or at the end. The forms differ in how the place is named: the end,
before or after a live instruction, or by number. Replacing an operand is an insertion's
check without a new slot.
-/

namespace BytecodePatch.Code

/-- The name of the instruction that is inserted next: the slot after all that were issued.
The name is new while the slot fits into 32 bits, which it does for the first `2 ^ 32`
insertions. -/
def nextHandle (code : Code) : Handle :=
  code.handleOf code.issued

/-- The code with an unchecked instruction before another, or at the end where none is
given. -/
def link (code : Code) (instr : Instr Handle) (next : Option Handle) : Code :=
  { code with chain := code.chain.link instr (next.map Handle.slot) }

def insert
    (code : Code) (next : Option Handle) (instr : Instr Handle) :
    Except Rejection (Handle × Code) := do
  code.check instr
  return (code.nextHandle, code.link instr next)

def append (code : Code) (instr : Instr Handle) : Except Rejection (Handle × Code) :=
  code.insert none instr

def insertAt
    (code : Code) (anchor : Option Handle) (instr : Instr Handle) :
    Except Rejection (Handle × Code) := do
  match anchor with
  | some anchor => code.require anchor
  | none => pure ()
  code.insert anchor instr

def insertBefore
    (code : Code) (anchor : Handle) (instr : Instr Handle) :
    Except Rejection (Handle × Code) :=
  code.insertAt (some anchor) instr

def insertAfter
    (code : Code) (anchor : Handle) (instr : Instr Handle) :
    Except Rejection (Handle × Code) := do
  code.require anchor
  code.insert (code.next? anchor) instr

/-- Inserts so that the new instruction stands at a position; the length stands for the
end. -/
def insertBeforeAt
    (code : Code) (position : Nat) (instr : Instr Handle) :
    Except Rejection (Handle × Code) :=
  if position = code.length then code.append instr
  else do
    let anchor ← code.handleAt position
    code.insertBefore anchor instr

def insertAfterAt
    (code : Code) (position : Nat) (instr : Instr Handle) :
    Except Rejection (Handle × Code) := do
  let anchor ← code.handleAt position
  code.insertAfter anchor instr

def modify (code : Code) (handle : Handle) (change : Instr Handle → Instr Handle) : Code :=
  match code.slot? handle with
  | some slot => { code with chain := code.chain.modify slot change }
  | none => code

/-- Gives a live instruction another operand; answers the old one. -/
def replaceOperand
    (code : Code) (handle : Handle) (operand : Operand Handle) :
    Except Rejection (Operand Handle × Code) := do
  let instr ← code.get handle
  code.check ⟨instr.opcode, operand⟩
  return (instr.operand, code.modify handle fun instr => ⟨instr.opcode, operand⟩)

/-- Gives the instruction at a position another operand; answers the old one. -/
def replaceOperandAt
    (code : Code) (position : Nat) (operand : Operand Handle) :
    Except Rejection (Operand Handle × Code) := do
  let handle ← code.handleAt position
  code.replaceOperand handle operand

end BytecodePatch.Code
