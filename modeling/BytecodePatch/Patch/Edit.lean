import BytecodePatch.Patch.Cursor

/-!
# Edits

Edits that recur in rules, made of insertions, removals and searches. Each checks the shape
it relies on first, so that a refused edit leaves the instructions as they were. The
replacement of a range may still use up slots when it is refused, because it inserts before
it removes.
-/

namespace BytecodePatch

/-- The error of an edit that does not fit the instruction at which it was to be made. -/
def Code.misfit (code : Code) (handle : Handle) (misfit : Misfit) : PatchError :=
  let instr := match code.get? handle with
    | some instr => instr.text
    | none => handle.text
  .unsupportedShape ((code.position? handle).getD 0) instr misfit

namespace Edit

def checkAll (code : Code) : List (Instr Handle) → Except Rejection Unit
  | [] => .ok ()
  | instr :: instrs => do
      code.check instr
      checkAll code instrs

/-- What came of an edit: the handles it inserted or its error, and the code afterwards. -/
abbrev Outcome := Except PatchError (List Handle) × Code

/-- Adds a condition to a conditional branch. The condition, which pushes a boolean, is put
right after the branch, with a branch to the same target if it is false. -/
def guard (code : Code) (branch : Handle) (condition : List (Instr Handle)) : Outcome :=
  match code.get branch with
  | .error rejection => (.error (.rejected rejection), code)
  | .ok instr =>
      match instr.target?.filter fun _ => instr.opcode.isConditionalBranch with
      | none => (.error (code.misfit branch .notConditionalBranch), code)
      | some target =>
          if condition.isEmpty then (.error (code.misfit branch .emptyGuard), code)
          else
            let instrs := condition ++ [⟨.branchIfFalse, .target target⟩]
            match checkAll code instrs with
            | .error rejection => (.error (.rejected rejection), code)
            | .ok () =>
                let emission := (Cursor.fresh (code.next? branch)).emitAll code instrs
                (emission.handles, emission.code)

def insertAllBefore (anchor : Handle) :
    List (Instr Handle) → Code → Except Rejection (List Handle × Code)
  | [], code => .ok ([], code)
  | instr :: instrs, code => do
      let (handle, code) ← code.insertBefore anchor instr
      let (handles, code) ← insertAllBefore anchor instrs code
      return (handle :: handles, code)

def withdraw (code : Code) (handles : List Handle) : Code :=
  handles.foldr (fun handle code => (code.remove handle .reject).2) code

/-- Replaces `count` instructions from a live one on. References into the range move to the
first of the new instructions. -/
def replaceRange
    (code : Code) (first : Handle) (count : Nat) (replacement : List (Instr Handle)) :
    Outcome :=
  if replacement.isEmpty then (.error (code.misfit first .emptyReplacement), code)
  else if count = 0 then (.error (code.misfit first .nothingToReplace), code)
  else
    let inserted : Except Rejection (List Handle × Code) := do
      checkAll code replacement
      discard <| code.get first
      insertAllBefore first replacement code
    match inserted with
    | .error rejection => (.error (.rejected rejection), code)
    | .ok (handles, inserted) =>
        let repair := match handles with
          | handle :: _ => Repair.to handle
          | [] => Repair.reject
        match inserted.removeRange first count repair with
        | (.ok _, replaced) => (.ok handles, replaced)
        | (.error rejection, reached) =>
            (.error (.rejected rejection), withdraw reached handles)

def callFollows : List Line → Bool
  | [] => false
  | line :: lines =>
      if line.instr.opcode.isCall then true
      else if line.instr.opcode.isBranch || line.instr.opcode == .ret then false
      else callFollows lines

def replaceCallArgument
    (code : Code) (literal : Handle) (replacement : List (Instr Handle)) :
    Outcome :=
  match code.get literal with
  | .error rejection => (.error (.rejected rejection), code)
  | .ok instr =>
      if instr.literal?.isNone then (.error (code.misfit literal .notLiteral), code)
      else
        let following := match code.position? literal with
          | some position => code.lines.drop (position + 1)
          | none => []
        if callFollows following then replaceRange code literal 1 replacement
        else (.error (code.misfit literal .unconsumedLiteral), code)

def hookAfterStore (code : Code) (field hook : Symbol) : Outcome :=
  let search := (Cursor.atStart code).findOrFail code .forward .after
    [.symbol .storeField field] Pattern.text
  match search with
  | .error error => (.error error, code)
  | .ok (_, cursor) =>
      let emission := cursor.emitAll code
        [⟨.loadArg, .argument 0⟩, ⟨.call, .symbol hook⟩]
      (emission.handles, emission.code)

end Edit

end BytecodePatch
