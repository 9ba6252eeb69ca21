import BytecodePatch.Instr.Basic
import BytecodePatch.Wire.Basic

/-!
# Rejections

Why an edit of code, the assembly of code from labels, or the reading of an image is
refused.
-/

namespace BytecodePatch

/-- The cause of a refusal. -/
inductive Rejection where
  /-- Branches would be left without a target. The position is that of the removed target,
  or of the branch itself where whole code is checked. -/
  | danglingBranch (position branches : Nat)
  /-- The handle names no live instruction of the code. -/
  | staleHandle (handle : Handle)
  | positionOutOfRange (position length : Nat)
  /-- The instruction that branches should move to is removed as well, or is not live. -/
  | invalidRepair (handle : Handle)
  | operandMismatch (opcode : Opcode) (expected found : OperandKind)
  | undefinedLabel (label : String)
  | duplicateLabel (label : String)
  | trailingLabel (label : String)
  /-- An image refers to a position outside itself. -/
  | targetOutOfRange (position : Nat) (target : UInt32)
  | undecodable (fault : Wire.Fault)

def Rejection.message : Rejection → String
  | danglingBranch position branches =>
      toString branches ++ " branch(es) at position " ++ toString position ++
        " would be left without a target"
  | staleHandle handle => "instruction " ++ handle.text ++ " is not part of this stream"
  | positionOutOfRange position length =>
      "position " ++ toString position ++ " is out of range for a stream of " ++
        toString length ++ " instructions"
  | invalidRepair handle => "cannot repair branches onto " ++ handle.text
  | operandMismatch opcode expected found =>
      "`" ++ opcode.mnemonic ++ "` takes " ++ expected.text ++ " operand, got " ++ found.text
  | undefinedLabel label => "label `" ++ label ++ "` is never defined"
  | duplicateLabel label => "label `" ++ label ++ "` is defined twice"
  | trailingLabel label => "label `" ++ label ++ "` is not followed by an instruction"
  | targetOutOfRange position target =>
      "branch at position " ++ toString position ++ " targets " ++ toString target ++
        ", past the end of the body"
  | undecodable fault => "body image: " ++ fault.message

/-- Refuses an instruction whose operand is not of the kind that its opcode carries. -/
def Instr.checkShape {Ref : Type} (instr : Instr Ref) : Except Rejection Unit :=
  if instr.HasShape then .ok ()
  else .error (.operandMismatch instr.opcode instr.opcode.operandKind instr.operand.kind)

end BytecodePatch
