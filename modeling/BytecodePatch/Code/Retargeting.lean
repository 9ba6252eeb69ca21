import BytecodePatch.Code.Insertion

/-!
# Retargeting

Branches that refer to one instruction are made to refer to another. All handles are
checked before anything changes. The code is handed back also when a handle is refused.
-/

namespace BytecodePatch.Code

def refCount (code : Code) (branch source : Handle) : Nat :=
  match code.get? branch with
  | some instr => instr.refs.count source
  | none => 0

/-- Makes the references to `source` in the listed instructions ones to `destination`, one
instruction after another; answers how many were changed in all. -/
def redirectIn (source destination : Handle) : List Handle → Code → Nat × Code
  | [], code => (0, code)
  | branch :: branches, code =>
      let changed := code.modify branch (Instr.redirect [source] destination)
      let (count, result) := redirectIn source destination branches changed
      (code.refCount branch source + count, result)

/-- Refuses handles unless they are all live; the first that is not is reported. -/
def requireAll (code : Code) : List Handle → Except Rejection Unit
  | [] => .ok ()
  | handle :: handles => do
      code.require handle
      code.requireAll handles

/-- Makes the references to `source` in the listed instructions ones to `destination`, which
must be live as the listed instructions must; answers how many were changed. -/
def retargetFrom
    (code : Code) (branches : List Handle) (source destination : Handle) :
    Except Rejection Nat × Code :=
  match code.requireAll (destination :: branches) with
  | .error rejection => (.error rejection, code)
  | .ok () =>
      let (count, result) := redirectIn source destination branches code
      (.ok count, result)

/-- Makes every reference to `source` one to `destination`; answers how many were
changed. -/
def retarget (code : Code) (source destination : Handle) : Except Rejection Nat × Code :=
  code.retargetFrom (code.referrers source) source destination

end BytecodePatch.Code
