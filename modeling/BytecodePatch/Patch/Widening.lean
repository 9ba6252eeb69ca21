import BytecodePatch.Body.Basic
import BytecodePatch.Code.Insertion
import BytecodePatch.Patch.Edit

/-!
# Widening of expressions

Given the last instruction of an arithmetic expression, a walk goes back over the
instructions that compute it and notes its leaves; then a conversion to the wider type is
inserted after each leaf. The walk counts the operands that are still to be found: one at
the start, one more at each binary operation, one less at each leaf. It ends when none is
left. Nothing is inserted unless it gets there.
-/

namespace BytecodePatch

/-- A change from a narrow type to a wide one. -/
inductive Widening where
  | float32ToFloat64
  | int32ToInt64
deriving DecidableEq

namespace Widening

def narrow : Widening → ValueType
  | float32ToFloat64 => .float32
  | int32ToInt64 => .int32

def conversion : Widening → Opcode
  | float32ToFloat64 => .convF64
  | int32ToInt64 => .convI64

def acceptsLiteral : Widening → Literal → Bool
  | float32ToFloat64, .float32 _ => true
  | int32ToInt64, .int32 _ => true
  | _, _ => false

def leafMisfit? (widening : Widening) (body : Body) (instr : Instr Handle) : Option Misfit :=
  let ofVariable (found : Option ValueType) : Option Misfit :=
    match found with
    | none => some .undeclaredVariable
    | some found =>
        if found = widening.narrow then none
        else some (.wrongVariable widening.narrow.text found.text)
  match instr.opcode with
  | .loadConst =>
      if instr.literal?.any widening.acceptsLiteral then none
      else some (.wrongLiteral widening.narrow.text)
  | .loadLocal => ofVariable (instr.localSlot?.bind body.localType?)
  | .loadArg => ofVariable (instr.argument?.bind body.argumentType?)
  | _ => some .undeclaredVariable

end Widening

/-- An instruction that the walk visited, its role, and the number of operands still to be
found after it. -/
structure WalkStep where
  handle : Handle
  role : StackRole
  pending : Nat
deriving DecidableEq

abbrev Walk := List WalkStep

def Walk.leaves (walk : Walk) : List Handle :=
  (walk.filter fun step => step.role == .producer).map WalkStep.handle

/-- Why a walk fails: at an instruction, or because it reached the start. -/
inductive WalkFailure where
  | at (handle : Handle) (misfit : Misfit)
  | startReached (pending : Nat)

namespace Widening

def walk (widening : Widening) (body : Body) :
    (pending : Nat) → List Line → Except WalkFailure Walk
  | 0, _ => .ok []
  | pending + 1, [] => .error (.startReached (pending + 1))
  | pending + 1, line :: lines =>
      let role := line.instr.opcode.stackRole
      match role with
      | .other => .error (.at line.handle .notArithmetic)
      | .binaryOp => do
          let steps ← walk widening body (pending + 2) lines
          return ⟨line.handle, role, pending + 2⟩ :: steps
      | .producer =>
          match widening.leafMisfit? body line.instr with
          | some misfit => .error (.at line.handle misfit)
          | none => do
              let steps ← walk widening body pending lines
              return ⟨line.handle, role, pending⟩ :: steps

/-- Inserts a conversion after each leaf; answers their handles. -/
def insertConversions (widening : Widening) :
    List Handle → Code → Except Rejection (List Handle × Code)
  | [], code => .ok ([], code)
  | leaf :: leaves, code => do
      let (handle, code) ← code.insertAfter leaf (.plain widening.conversion)
      let (handles, code) ← insertConversions widening leaves code
      return (handle :: handles, code)

end Widening

/-- What widening an expression did: the walk, and the conversions in the order of the
leaves of the walk. -/
structure WideningReport where
  walk : Walk
  conversions : List Handle

def Body.widen
    (body : Body) (last : Handle) (widening : Widening) :
    Except PatchError (WideningReport × Body) := do
  let position ← liftRejection (body.code.position last)
  let reversed := (body.code.lines.take (position + 1)).reverse
  match widening.walk body 1 reversed with
  | .error (.at handle misfit) => throw (body.code.misfit handle misfit)
  | .error (.startReached pending) => throw (body.code.misfit last (.startReached pending))
  | .ok walk =>
      let (conversions, code) ←
        liftRejection (widening.insertConversions walk.leaves body.code)
      return (⟨walk, conversions⟩, { body with code })

end BytecodePatch
