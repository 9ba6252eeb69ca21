import BytecodePatch.Proofs.Body.Image
import BytecodePatch.Proofs.Patch.Sound
import BytecodePatch.Proofs.Patch.Whole

/-!
# Runs of edits

A run starts with code that was made in one of three ways and puts it through any edits in
any order, whether they are carried out or refused. Handles, instructions and cursors may be
anything at all, also such as belong to other code. Every step keeps code sound, so all code
that a run reaches is sound.
-/

namespace BytecodePatch

/-- How code comes into being: without instructions, assembled from a draft, or loaded from
an image. -/
inductive Origin : Code → Prop where
  | empty (tag : Nat) : Origin (.empty tag)
  | assembled {draft rest : Draft} {tag : Nat} {code : Code}
      (assembled : draft.assemble tag = (.ok code, rest)) : Origin code
  | loaded {image : Image} {tag : Nat} {body : Body}
      (loaded : image.load tag = .ok body) : Origin body.code

/-- An attempt at an edit of code. -/
inductive Action where
  | append (instr : Instr Handle)
  | insertAt (anchor : Option Handle) (instr : Instr Handle)
  | insertBefore (anchor : Handle) (instr : Instr Handle)
  | insertAfter (anchor : Handle) (instr : Instr Handle)
  | insertBeforeAt (position : Nat) (instr : Instr Handle)
  | insertAfterAt (position : Nat) (instr : Instr Handle)
  | replaceOperand (handle : Handle) (operand : Operand Handle)
  | replaceOperandAt (position : Nat) (operand : Operand Handle)
  | retarget (source destination : Handle)
  | retargetFrom (branches : List Handle) (source destination : Handle)
  | remove (handle : Handle) (repair : Repair)
  | removeRange (first : Handle) (count : Nat) (repair : Repair)
  | removeAt (position : Nat) (repair : Repair)
  | removeRangeAt (position count : Nat) (repair : Repair)
  | emit (cursor : Cursor) (instr : Instr Handle)
  | emitAll (cursor : Cursor) (instrs : List (Instr Handle))
  | removeFrom (cursor : Cursor) (count : Nat) (repair : Repair)
  | guard (branch : Handle) (condition : List (Instr Handle))
  | replaceRange (first : Handle) (count : Nat) (replacement : List (Instr Handle))
  | replaceCallArgument (literal : Handle) (replacement : List (Instr Handle))
  | hookAfterStore (field hook : Symbol)
  | widen (args locals : List ValueType) (last : Handle) (widening : Widening)

/-- The code after an attempt whose checks all come before its one change, so that it has no code
of its own if it is refused. A widening inserts several instructions, but once it has found its
leaves it is not refused any more, which is `Body.exists_widen`. -/
def Code.after {ε α : Type} (code : Code) (result : α → Code) (attempt : Except ε α) : Code :=
  match attempt with
  | .ok value => result value
  | .error _ => code

/-- The code after an action. -/
def Action.perform (code : Code) : Action → Code
  | append instr => code.after Prod.snd (code.append instr)
  | insertAt anchor instr => code.after Prod.snd (code.insertAt anchor instr)
  | insertBefore anchor instr => code.after Prod.snd (code.insertBefore anchor instr)
  | insertAfter anchor instr => code.after Prod.snd (code.insertAfter anchor instr)
  | insertBeforeAt position instr => code.after Prod.snd (code.insertBeforeAt position instr)
  | insertAfterAt position instr => code.after Prod.snd (code.insertAfterAt position instr)
  | replaceOperand handle operand => code.after Prod.snd (code.replaceOperand handle operand)
  | replaceOperandAt position operand =>
      code.after Prod.snd (code.replaceOperandAt position operand)
  | retarget source destination => (code.retarget source destination).2
  | retargetFrom branches source destination =>
      (code.retargetFrom branches source destination).2
  | remove handle repair => (code.remove handle repair).2
  | removeRange first count repair => (code.removeRange first count repair).2
  | removeAt position repair => (code.removeAt position repair).2
  | removeRangeAt position count repair => (code.removeRangeAt position count repair).2
  | emit cursor instr => (cursor.emit code instr).2.2
  | emitAll cursor instrs => (cursor.emitAll code instrs).code
  | removeFrom cursor count repair => (cursor.remove code count repair).2.2
  | guard branch condition => (Edit.guard code branch condition).2
  | replaceRange first count replacement => (Edit.replaceRange code first count replacement).2
  | replaceCallArgument literal replacement =>
      (Edit.replaceCallArgument code literal replacement).2
  | hookAfterStore field hook => (Edit.hookAfterStore code field hook).2
  | widen args locals last widening =>
      code.after (·.2.code) (Body.widen ⟨args, locals, code⟩ last widening)

/-- The code after actions, one after another. -/
def Code.run (code : Code) (actions : List Action) : Code :=
  actions.foldl Action.perform code

/-! ## Soundness of all runs -/

theorem Origin.sound {code : Code} (origin : Origin code) : code.Sound := by
  cases origin with
  | empty tag => exact Code.sound_empty tag
  | assembled assembled => exact Draft.sound_of_assemble assembled
  | loaded loaded => exact Image.sound_of_load loaded

namespace Code.Sound

variable {code : Code}

private theorem after
    {ε α : Type} {result : α → Code} {attempt : Except ε α}
    (sound : code.Sound)
    (kept : ∀ value, attempt = .ok value → (result value).Sound) :
    (code.after result attempt).Sound := by
  cases attempt with
  | error error => exact sound
  | ok value => exact kept value rfl

/-- Every action keeps code sound. -/
theorem perform (sound : code.Sound) (action : Action) : (action.perform code).Sound := by
  cases action with
  | append instr => exact sound.after fun _ done => sound.append done
  | insertAt anchor instr => exact sound.after fun _ done => sound.insertAt done
  | insertBefore anchor instr => exact sound.after fun _ done => sound.insertBefore done
  | insertAfter anchor instr => exact sound.after fun _ done => sound.insertAfter done
  | insertBeforeAt position instr => exact sound.after fun _ done => sound.insertBeforeAt done
  | insertAfterAt position instr => exact sound.after fun _ done => sound.insertAfterAt done
  | replaceOperand handle operand => exact sound.after fun _ done => sound.replaceOperand done
  | replaceOperandAt position operand =>
      exact sound.after fun _ done => sound.replaceOperandAt done
  | retarget source destination => exact sound.retarget rfl
  | retargetFrom branches source destination => exact sound.retargetFrom rfl
  | remove handle repair => exact sound.remove rfl
  | removeRange first count repair => exact sound.removeRange rfl
  | removeAt position repair => exact sound.removeAt rfl
  | removeRangeAt position count repair => exact sound.removeRangeAt rfl
  | emit cursor instr => exact Cursor.sound_of_emit sound rfl
  | emitAll cursor instrs => exact Cursor.sound_emitAll instrs sound
  | removeFrom cursor count repair => exact Cursor.sound_of_remove sound rfl
  | guard branch condition => exact Edit.sound_guard sound branch condition
  | replaceRange first count replacement =>
      exact Edit.sound_replaceRange sound first count replacement
  | replaceCallArgument literal replacement =>
      exact Edit.sound_replaceCallArgument sound literal replacement
  | hookAfterStore field hook => exact Edit.sound_hookAfterStore sound field hook
  | widen args locals last widening =>
      have bodySound : (⟨args, locals, code⟩ : Body).code.Sound := sound
      exact sound.after fun _ done => Body.sound_of_widen bodySound done

/-- Every run keeps code sound. -/
theorem run (sound : code.Sound) (actions : List Action) : (code.run actions).Sound := by
  induction actions generalizing code with
  | nil => exact sound
  | cons action actions inductionHypothesis =>
      exact inductionHypothesis (sound.perform action)

end Code.Sound

end BytecodePatch
