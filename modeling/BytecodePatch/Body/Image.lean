import BytecodePatch.Body.Basic
import BytecodePatch.Code.Draft

/-!
# Images

An image is a body in the form in which it leaves the patcher: branches refer to positions
instead of handles. A body is flattened into an image, and an image is loaded into a body
with fresh handles.
-/

namespace BytecodePatch

/-- A body whose branches refer to positions. -/
structure Image where
  args : List ValueType
  locals : List ValueType
  instrs : List (Instr UInt32)
deriving DecidableEq

/-- The position that a reference stands for in an image. References of verified code are
all live. -/
def Code.positionOf (code : Code) (handle : Handle) : UInt32 :=
  UInt32.ofNat ((code.position? handle).getD 0)

/-- The image of a body. Refused if a branch is left without a target. -/
def Body.flatten (body : Body) : Except Rejection Image := do
  body.code.verify
  return {
    args := body.args
    locals := body.locals
    instrs := body.code.lines.map fun line => line.instr.map body.code.positionOf }

namespace Image

def length (image : Image) : Nat :=
  image.instrs.length

/-- Refuses an image with a reference past its end; the first is reported. -/
def validate (image : Image) : Except Rejection Unit :=
  let outside? (instr : Instr UInt32) : Option UInt32 :=
    instr.refs.find? fun ref => image.length ≤ ref.toNat
  match image.instrs.zipIdx.findSome? fun (instr, position) =>
    (outside? instr).map fun ref => (position, ref) with
  | some (position, ref) => .error (.targetOutOfRange position ref)
  | none => .ok ()

/-- The body of an image, its code having the given identity. Each instruction gets its
position as its slot. -/
def load (image : Image) (tag : Nat) : Except Rejection Body := do
  image.validate
  let instrs ← image.instrs.mapM fun instr => do
    instr.checkShape
    return instr.map fun ref => (⟨tag, ref.toNat⟩ : Handle)
  let code := Draft.codeOf tag instrs
  code.verify
  return ⟨image.args, image.locals, code⟩

end Image

end BytecodePatch
