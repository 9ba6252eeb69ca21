import BytecodePatch.Proofs.Run.Action
import BytecodePatch.Proofs.Strict.Patch

/-!
# Strict runs

Code is made strictly, from a draft or an image, put through edits strictly, and asked and
flattened strictly. Whatever the edits and the questions are, nothing ever fails: code that
was made in one of the three ways is sound, and strict steps keep to the steps that keep it
sound.
-/

namespace BytecodePatch

open Strict

/-- A fold fails nowhere if its steps do not fail on what they are given one after another. -/
theorem Strict.foldlM_eq_foldl
    {σ α : Type} {step : σ → α → Option σ} {total : σ → α → σ}
    {items : List α} {state : σ}
    (Kept : σ → Prop)
    (each :
      ∀ state item,
        item ∈ items → Kept state →
          step state item = some (total state item) ∧ Kept (total state item))
    (kept : Kept state) :
    items.foldlM step state = some (items.foldl total state) := by
  induction items generalizing state with
  | nil => rfl
  | cons item items inductionHypothesis =>
      rcases each state item List.mem_cons_self kept with ⟨stepEq, keptNext⟩
      rw [List.foldlM_cons, stepEq, Option.bind_eq_bind, Option.bind_some, List.foldl_cons]
      apply inductionHypothesis _ keptNext
      exact fun state item member => each state item (List.mem_cons_of_mem _ member)

/-! ## Code from drafts and images -/

namespace Draft

def codeOfStrict (tag : Nat) (instrs : List (Instr Handle)) : Option Code :=
  instrs.foldlM (fun code instr => code.linkStrict instr none) (.empty tag)

def codeStrict (draft : Draft) (tag : Nat) : Strict Rejection Code := do
  match draft.marks.find? fun (_, index) => draft.entries.length ≤ index with
  | some (label, _) => throw (.trailingLabel label)
  | none => pure ()
  let instrs ← sure (draft.entries.mapM (draft.instrOf tag))
  let code ← access (codeOfStrict tag instrs)
  code.asking code.verify
  return code

def assembleStrict (draft : Draft) (tag : Nat) : Option (Except Rejection Code × Draft) :=
  match draft.duplicate with
  | some label => some (.error (.duplicateLabel label), { draft with duplicate := none })
  | none => (draft.codeStrict tag).run.map fun result => (result, draft)

theorem codeOfStrict_eq (tag : Nat) (instrs : List (Instr Handle)) :
    codeOfStrict tag instrs = some (codeOf tag instrs) := by
  apply foldlM_eq_foldl Code.WellLinked
  · intro code instr _ linked
    have cut : code.lines = code.lines ++ [] := (List.append_nil _).symm
    exact ⟨linked.linkStrict_eq (by simp), linked.link instr cut⟩
  · exact Code.wellLinked_empty tag

theorem codeStrict_eq (draft : Draft) (tag : Nat) :
    draft.codeStrict tag = sure (draft.code tag) := by
  unfold codeStrict code
  dsimp only
  cases draft.marks.find? fun mark => draft.entries.length ≤ mark.2 with
  | some mark => rfl
  | none =>
      apply bind_eq_sure
      intro instrs _
      rw [codeOfStrict_eq, access_some, sure_ok_bind, (wellLinked_codeOf tag instrs).asking_eq]
      exact bind_eq_sure fun _ _ => rfl

theorem assembleStrict_eq (draft : Draft) (tag : Nat) :
    draft.assembleStrict tag = some (draft.assemble tag) := by
  unfold assembleStrict assemble
  cases draft.duplicate with
  | some label => rfl
  | none =>
      dsimp only
      rw [codeStrict_eq]
      rfl

end Draft

def Image.loadStrict (image : Image) (tag : Nat) : Strict Rejection Body := do
  sure image.validate
  let instrs ← sure <| image.instrs.mapM fun instr => do
    instr.checkShape
    return instr.map fun ref => (⟨tag, ref.toNat⟩ : Handle)
  let code ← access (Draft.codeOfStrict tag instrs)
  code.asking code.verify
  return ⟨image.args, image.locals, code⟩

theorem Image.loadStrict_eq (image : Image) (tag : Nat) :
    image.loadStrict tag = sure (image.load tag) := by
  apply bind_eq_sure
  intro _ _
  apply bind_eq_sure
  intro instrs _
  dsimp only
  rw [Draft.codeOfStrict_eq, access_some, sure_ok_bind,
    (Draft.wellLinked_codeOf tag instrs).asking_eq]
  exact bind_eq_sure fun _ _ => rfl

/-! ## Images of bodies -/

/-- The image of a body whose lines are walked along. There must be a position for each
reference. -/
def Body.imageStrict (body : Body) : Option Image := do
  let lines ← body.code.linesStrict
  let placed (ref : Handle) : Bool := (lines.map Line.handle).contains ref
  if lines.all fun line => line.refs.all placed then some body.image else none

def Body.flattenStrict (body : Body) : Strict Rejection Image := do
  body.code.asking body.code.verify
  access body.imageStrict

theorem Body.flattenStrict_eq {body : Body} (sound : body.code.Sound) :
    body.flattenStrict = sure body.flatten := by
  have placed :
      (body.code.lines.all fun line =>
        line.refs.all fun ref => (body.code.lines.map Line.handle).contains ref) = true := by
    rw [List.all_eq_true]
    intro line member
    rw [List.all_eq_true]
    intro ref refMember
    exact List.contains_iff_mem.mpr (sound.live line member ref refMember)
  have imageEq : body.imageStrict = some body.image := by
    rw [imageStrict, sound.linked.linesStrict_eq, Option.bind_eq_bind, Option.bind_some]
    exact if_pos placed
  rw [flattenStrict, sound.linked.asking_eq, imageEq, flatten]
  exact bind_eq_sure fun _ _ => rfl

/-! ## Runs -/

/-- The code after a strict attempt. -/
def Code.afterStrict
    {ε α : Type} (code : Code) (result : α → Code) (attempt : Strict ε α) : Option Code :=
  attempt.run.map (code.after result)

def Action.performStrict (code : Code) : Action → Option Code
  | append instr => code.afterStrict Prod.snd (code.insertStrict none instr)
  | insertAt anchor instr => code.afterStrict Prod.snd (code.insertAtStrict anchor instr)
  | insertBefore anchor instr =>
      code.afterStrict Prod.snd (code.insertAtStrict (some anchor) instr)
  | insertAfter anchor instr => code.afterStrict Prod.snd (code.insertAfterStrict anchor instr)
  | insertBeforeAt position instr =>
      code.afterStrict Prod.snd (code.insertBeforeAtStrict position instr)
  | insertAfterAt position instr =>
      code.afterStrict Prod.snd (code.insertAfterAtStrict position instr)
  | replaceOperand handle operand =>
      code.afterStrict Prod.snd (code.replaceOperandStrict handle operand)
  | replaceOperandAt position operand =>
      code.afterStrict Prod.snd (code.replaceOperandAtStrict position operand)
  | retarget source destination => (code.retargetStrict source destination).map Prod.snd
  | retargetFrom branches source destination =>
      (code.retargetFromStrict branches source destination).map Prod.snd
  | remove handle repair => (code.removeStrict handle repair).map Prod.snd
  | removeRange first count repair => (code.removeRangeStrict first count repair).map Prod.snd
  | removeAt position repair => (code.removeAtStrict position repair).map Prod.snd
  | removeRangeAt position count repair =>
      (code.removeRangeAtStrict position count repair).map Prod.snd
  | emit cursor instr => (cursor.emitStrict code instr).map (·.2.2)
  | emitAll cursor instrs => (cursor.emitAllStrict code instrs).map Cursor.Emission.code
  | removeFrom cursor count repair => (cursor.removeStrict code count repair).map (·.2.2)
  | guard branch condition => (Edit.guardStrict code branch condition).map Prod.snd
  | replaceRange first count replacement =>
      (Edit.replaceRangeStrict code first count replacement).map Prod.snd
  | replaceCallArgument literal replacement =>
      (Edit.replaceCallArgumentStrict code literal replacement).map Prod.snd
  | hookAfterStore field hook => (Edit.hookAfterStoreStrict code field hook).map Prod.snd
  | widen args locals last widening =>
      code.afterStrict (·.2.code) (Body.widenStrict ⟨args, locals, code⟩ last widening)

def Code.runStrict (code : Code) (actions : List Action) : Option Code :=
  actions.foldlM Action.performStrict code

namespace Code.Sound

variable {code : Code}

/-- No action fails on sound code. -/
theorem performStrict_eq (sound : code.Sound) (action : Action) :
    action.performStrict code = some (action.perform code) := by
  have linked := sound.linked
  cases action with
  | append instr =>
      exact congrArg (code.afterStrict Prod.snd) (linked.insertStrict_eq (by simp))
  | insertAt anchor instr =>
      exact congrArg (code.afterStrict Prod.snd) (linked.insertAtStrict_eq anchor)
  | insertBefore anchor instr =>
      exact congrArg (code.afterStrict Prod.snd) (linked.insertAtStrict_eq (some anchor))
  | insertAfter anchor instr =>
      exact congrArg (code.afterStrict Prod.snd) (linked.insertAfterStrict_eq anchor)
  | insertBeforeAt position instr =>
      exact congrArg (code.afterStrict Prod.snd) (linked.insertBeforeAtStrict_eq position)
  | insertAfterAt position instr =>
      exact congrArg (code.afterStrict Prod.snd) (linked.insertAfterAtStrict_eq position)
  | replaceOperand handle operand =>
      exact congrArg (code.afterStrict Prod.snd) (code.replaceOperandStrict_eq handle operand)
  | replaceOperandAt position operand =>
      exact congrArg (code.afterStrict Prod.snd)
        (linked.replaceOperandAtStrict_eq position operand)
  | retarget source destination =>
      exact congrArg (Option.map _) (linked.retargetStrict_eq source destination)
  | retargetFrom branches source destination =>
      exact congrArg (Option.map _) (code.retargetFromStrict_eq branches source destination)
  | remove handle repair =>
      exact congrArg (Option.map _) (linked.removeStrict_eq handle repair)
  | removeRange first count repair =>
      exact congrArg (Option.map _) (linked.removeRangeStrict_eq first count repair)
  | removeAt position repair =>
      exact congrArg (Option.map _) (linked.removeAtStrict_eq position repair)
  | removeRangeAt position count repair =>
      exact congrArg (Option.map _) (linked.removeRangeAtStrict_eq position count repair)
  | emit cursor instr =>
      exact congrArg (Option.map _) (Cursor.emitStrict_eq sound cursor instr)
  | emitAll cursor instrs =>
      exact congrArg (Option.map _) (Cursor.emitAllStrict_eq instrs sound)
  | removeFrom cursor count repair =>
      exact congrArg (Option.map _) (Cursor.removeStrict_eq sound cursor count repair)
  | guard branch condition =>
      exact congrArg (Option.map _) (Edit.guardStrict_eq sound branch condition)
  | replaceRange first count replacement =>
      exact congrArg (Option.map _) (Edit.replaceRangeStrict_eq sound first count replacement)
  | replaceCallArgument literal replacement =>
      exact congrArg (Option.map _) (Edit.replaceCallArgumentStrict_eq sound literal replacement)
  | hookAfterStore field hook =>
      exact congrArg (Option.map _) (Edit.hookAfterStoreStrict_eq sound field hook)
  | widen args locals last widening =>
      have bodySound : (⟨args, locals, code⟩ : Body).code.Sound := sound
      exact congrArg (code.afterStrict (·.2.code)) (Body.widenStrict_eq bodySound last widening)

/-- No run fails on sound code. -/
theorem runStrict_eq (sound : code.Sound) (actions : List Action) :
    code.runStrict actions = some (code.run actions) :=
  foldlM_eq_foldl Code.Sound
    (fun _ action _ sound => ⟨sound.performStrict_eq action, sound.perform action⟩) sound

end Code.Sound

/-! ## Code that was made -/

/-- Code that came into being in one of the three ways and went through a run. -/
def Code.Made (code : Code) : Prop :=
  ∃ start actions, Origin start ∧ code = start.run actions

namespace Code.Made

variable {code : Code}

theorem of_origin (origin : Origin code) : code.Made :=
  ⟨code, [], origin, rfl⟩

theorem run (made : code.Made) (actions : List Action) : (code.run actions).Made := by
  rcases made with ⟨start, earlier, origin, rfl⟩
  refine ⟨start, earlier ++ actions, origin, ?_⟩
  exact (List.foldl_append ..).symm

theorem sound (made : code.Made) : code.Sound := by
  rcases made with ⟨start, actions, origin, rfl⟩
  exact origin.sound.run actions

end Code.Made

/-- A window has a first and a last instruction. -/
def HasEnds (window : List Handle) : Prop :=
  ∃ first last, window.head? = some first ∧ window.getLast? = some last

theorem hasEnds_of_ne_nil {window : List Handle} (nonempty : window ≠ []) : HasEnds window :=
  ⟨window.head nonempty, window.getLast nonempty, List.head?_eq_some_head nonempty,
    List.getLast?_eq_some_getLast nonempty⟩

/-- Nothing fails that is done with code: walking along its lines, searching it with any
cursor, taking the ends of a window that was found, flattening it, and any run. -/
structure Code.Unfailing (code : Code) : Prop where
  walks : code.linesStrict = some code.lines
  searches :
    ∀ (cursor : Cursor) (direction : Direction) (landing : Landing) (pattern : Pattern),
      cursor.findStrict code direction landing pattern =
          sure (cursor.find? code direction landing pattern) ∧
        ∀ window moved,
          cursor.find? code direction landing pattern = .ok (some window, moved) →
            HasEnds window
  searchesOrRefuses :
    ∀ (cursor : Cursor) (direction : Direction) (landing : Landing) (pattern : Pattern)
      (describe : Pattern → String),
      cursor.findOrFailStrict code direction landing pattern describe =
          sure (cursor.findOrFail code direction landing pattern describe) ∧
        ∀ window moved,
          cursor.findOrFail code direction landing pattern describe = .ok (window, moved) →
            HasEnds window
  flattens :
    ∀ args locals,
      Body.flattenStrict ⟨args, locals, code⟩ = sure (Body.flatten ⟨args, locals, code⟩)
  runs : ∀ actions, code.runStrict actions = some (code.run actions)

theorem Code.Sound.unfailing {code : Code} (sound : code.Sound) : code.Unfailing where
  walks := sound.linked.linesStrict_eq
  searches := by
    intro cursor direction landing pattern
    refine ⟨Cursor.findStrict_eq sound cursor direction landing pattern, ?_⟩
    exact fun _ _ found => hasEnds_of_ne_nil (Cursor.ne_nil_of_find? found)
  searchesOrRefuses := by
    intro cursor direction landing pattern describe
    refine ⟨Cursor.findOrFailStrict_eq sound cursor direction landing pattern describe, ?_⟩
    exact fun _ _ found => hasEnds_of_ne_nil (Cursor.ne_nil_of_findOrFail found)
  flattens := by
    intro args locals
    have bodySound : (⟨args, locals, code⟩ : Body).code.Sound := sound
    exact Body.flattenStrict_eq bodySound
  runs := sound.runStrict_eq

end BytecodePatch
