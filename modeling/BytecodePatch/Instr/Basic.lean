import BytecodePatch.Instr.Literal
import BytecodePatch.Instr.Opcode
import BytecodePatch.Instr.Symbol

/-!
# Instructions

An instruction is an opcode with an operand. Branches refer to other instructions, and how
they do so is a parameter: an editable body refers by handle, a committed image by
position. Everything that only carries references along, or replaces them, is said once
for all kinds of reference.
-/

namespace BytecodePatch

/-- The name of an instruction: the identity of the code that issued it and a slot that
this code never issues again. A slot is kept in 32 bits; as a number without that bound it is
the same as long as code issues at most `2 ^ 32` slots. -/
structure Handle where
  code : Nat
  slot : Nat
deriving DecidableEq

def Handle.text (handle : Handle) : String :=
  "#" ++ toString handle.slot

/-- An operand. -/
inductive Operand (Ref : Type) where
  | none
  | literal (value : Literal)
  | symbol (value : Symbol)
  | localSlot (index : UInt16)
  | argument (index : UInt16)
  | target (ref : Ref)
  | targets (refs : List Ref)
deriving DecidableEq

namespace Operand

variable {Ref NewRef : Type}

def kind : Operand Ref → OperandKind
  | none => .none
  | literal _ => .literal
  | symbol _ => .symbol
  | localSlot _ => .localSlot
  | argument _ => .argument
  | target _ => .target
  | targets _ => .targets

def refs : Operand Ref → List Ref
  | target ref => [ref]
  | targets refs => refs
  | _ => []

def map (replace : Ref → NewRef) : Operand Ref → Operand NewRef
  | none => none
  | literal value => literal value
  | symbol value => symbol value
  | localSlot index => localSlot index
  | argument index => argument index
  | target ref => target (replace ref)
  | targets refs => targets (refs.map replace)

def agrees [DecidableEq Ref] : Operand Ref → Operand Ref → Bool
  | literal left, literal right => left.agrees right
  | left, right => left == right

@[simp]
theorem kind_map (replace : Ref → NewRef) (operand : Operand Ref) :
    (operand.map replace).kind = operand.kind := by
  cases operand <;> rfl

@[simp]
theorem refs_map (replace : Ref → NewRef) (operand : Operand Ref) :
    (operand.map replace).refs = operand.refs.map replace := by
  cases operand <;> rfl

def text : Operand Handle → String
  | none => ""
  | literal value => " " ++ value.text
  | symbol value => " " ++ value.text
  | localSlot index => " " ++ toString index
  | argument index => " " ++ toString index
  | target handle => " " ++ handle.text
  | targets handles => " [" ++ String.intercalate ", " (handles.map Handle.text) ++ "]"

end Operand

/-- An instruction. -/
structure Instr (Ref : Type) where
  opcode : Opcode
  operand : Operand Ref
deriving DecidableEq

namespace Instr

variable {Ref NewRef : Type}

def plain (opcode : Opcode) : Instr Ref :=
  ⟨opcode, .none⟩

def refs (instr : Instr Ref) : List Ref :=
  instr.operand.refs

def map (replace : Ref → NewRef) (instr : Instr Ref) : Instr NewRef :=
  ⟨instr.opcode, instr.operand.map replace⟩

def HasShape (instr : Instr Ref) : Prop :=
  instr.operand.kind = instr.opcode.operandKind

instance (instr : Instr Ref) : Decidable instr.HasShape :=
  inferInstanceAs (Decidable (_ = _))

/-- The instruction with every reference to one of the sources made one to the destination. -/
def redirect [DecidableEq Ref] (sources : List Ref) (destination : Ref) (instr : Instr Ref) :
    Instr Ref :=
  instr.map fun ref => if ref ∈ sources then destination else ref

def agrees [DecidableEq Ref] (left right : Instr Ref) : Bool :=
  left.opcode == right.opcode && left.operand.agrees right.operand

@[simp]
theorem refs_map (replace : Ref → NewRef) (instr : Instr Ref) :
    (instr.map replace).refs = instr.refs.map replace :=
  Operand.refs_map replace instr.operand

@[simp]
theorem hasShape_map (replace : Ref → NewRef) (instr : Instr Ref) :
    (instr.map replace).HasShape ↔ instr.HasShape := by
  simp [HasShape, map]

def symbol? (instr : Instr Ref) : Option Symbol :=
  match instr.operand with
  | .symbol value => some value
  | _ => none

def literal? (instr : Instr Ref) : Option Literal :=
  match instr.operand with
  | .literal value => some value
  | _ => none

def localSlot? (instr : Instr Ref) : Option UInt16 :=
  match instr.operand with
  | .localSlot index => some index
  | _ => none

def argument? (instr : Instr Ref) : Option UInt16 :=
  match instr.operand with
  | .argument index => some index
  | _ => none

def target? (instr : Instr Ref) : Option Ref :=
  match instr.operand with
  | .target ref => some ref
  | _ => none

def text (instr : Instr Handle) : String :=
  instr.opcode.mnemonic ++ instr.operand.text

end Instr

end BytecodePatch
