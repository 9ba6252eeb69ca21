import BytecodePatch.Proofs.Patch.Sound
import BytecodePatch.Proofs.Strict.Code

/-!
# Strict cursors and edits

Searches, edits at a cursor and the edits in several steps, made of strict edits of code. A
search takes the first and the last instruction of the window that it found, a replacement
takes the first of the instructions that it inserted, and a walk lowers the count of operands
that are still to be found; none of these may be missing. On sound code nothing ever fails.
-/

namespace BytecodePatch

open Strict

variable {α : Type} {code : Code} {cursor : Cursor}

/-- A strict edit of code as part of a patch. -/
def Strict.liftRefusal (attempt : Strict Rejection α) : Strict PatchError α :=
  ExceptT.mk (attempt.run.map liftRejection)

theorem Strict.liftRefusal_sure (result : Except Rejection α) :
    liftRefusal (sure result) = sure (liftRejection result) :=
  rfl

/-! ## Cursors -/

namespace Cursor

def indexStrict (cursor : Cursor) (code : Code) : Strict PatchError Nat :=
  code.asking (cursor.index code)

/-- There must be a first and a last instruction in the window. -/
def landStrict (code : Code) (window : List Handle) (landing : Landing) : Option Cursor := do
  let first ← window.head?
  let last ← window.getLast?
  match landing with
  | .before => return ⟨some first, none, some first⟩
  | .takingBranches => return ⟨some first, some first, some first⟩
  | .after => return ⟨code.next? last, none, some first⟩

def findStrict
    (cursor : Cursor) (code : Code) (direction : Direction) (landing : Landing)
    (pattern : Pattern) :
    Strict PatchError (Option (List Handle) × Cursor) := do
  let position ← cursor.indexStrict code
  if pattern.isEmpty then
    return (none, cursor)
  match nearestWindow? pattern cursor.lastMatch code position direction with
  | some window =>
      let landed ← access (landStrict code window landing)
      return (some window, landed)
  | none => return (none, cursor)

def findOrFailStrict
    (cursor : Cursor) (code : Code) (direction : Direction) (landing : Landing)
    (pattern : Pattern) (describe : Pattern → String) :
    Strict PatchError (List Handle × Cursor) := do
  match ← cursor.findStrict code direction landing pattern with
  | (some window, cursor) => return (window, cursor)
  | (none, cursor) => code.asking (throw (cursor.missed code direction (describe pattern)))

def emitStrict
    (cursor : Cursor) (code : Code) (instr : Instr Handle) :
    Option (Except PatchError Handle × Cursor × Code) := do
  match ← code.along (cursor.index code) with
  | .error error => return (.error error, cursor, code)
  | .ok _ =>
      let waiting ←
        code.along (cursor.pending.map fun source => (source, code.referrers source))
      match ← (code.insertAtStrict cursor.next instr).run with
      | .error rejection => return (.error (.rejected rejection), cursor, code)
      | .ok (handle, inserted) =>
          let settled := { cursor with pending := none }
          match waiting with
          | none => return (.ok handle, settled, inserted)
          | some (source, branches) =>
              match ← inserted.retargetFromStrict branches source handle with
              | (.error rejection, result) =>
                  return (.error (.rejected rejection), settled, result)
              | (.ok _, result) => return (.ok handle, settled, result)

def emitAllStrict (cursor : Cursor) (code : Code) : List (Instr Handle) → Option Emission
  | [] => some ⟨.ok [], cursor, code⟩
  | instr :: instrs => do
      match ← cursor.emitStrict code instr with
      | (.error error, cursor, code) => return ⟨.error error, cursor, code⟩
      | (.ok handle, cursor, code) =>
          let rest ← emitAllStrict cursor code instrs
          return { rest with handles := rest.handles.map (handle :: ·) }

def removeStrict
    (cursor : Cursor) (code : Code) (count : Nat) (repair : Repair) :
    Option (Except PatchError (List (Instr Handle)) × Cursor × Code) := do
  match ← code.along (cursor.index code) with
  | .error error => return (.error error, cursor, code)
  | .ok _ =>
      match cursor.next with
      | none => return (.error .invalidAnchor, cursor, code)
      | some first =>
          let following := code.skip? count (some first)
          match ← code.removeRangeStrict first count repair with
          | (.error rejection, result) =>
              return (.error (.rejected rejection), cursor, result)
          | (.ok removed, result) =>
              let pending := cursor.pending.filter result.contains
              return (.ok removed, { cursor with next := following, pending := pending }, result)

/-! ### Windows -/

theorem ne_nil_of_windowAtFront?
    {pattern : Pattern} {lines : List Line} {window : List Handle}
    (nonempty : pattern ≠ []) (found : pattern.windowAtFront? lines = some window) :
    window ≠ [] := by
  unfold Pattern.windowAtFront? at found
  split at found
  · rename_i fits
    obtain rfl := Option.some.inj found
    rcases pattern with _ | ⟨matcher, matchers⟩
    · exact absurd rfl nonempty
    · rcases lines with _ | ⟨line, lines⟩
      · simp [Pattern.matchesFront] at fits
      · simp
  · cases found

theorem ne_nil_of_firstWindow?
    {pattern : Pattern} {skipped : Option Handle} {window : List Handle}
    (nonempty : pattern ≠ []) :
    ∀ {lines : List Line}, firstWindow? pattern skipped lines = some window → window ≠ []
  | [], found => by
      cases found
  | line :: lines, found => by
      unfold firstWindow? at found
      dsimp only at found
      split at found
      · rename_i here
        obtain rfl := Option.some.inj found
        split at here
        · cases here
        · exact ne_nil_of_windowAtFront? nonempty here
      · exact ne_nil_of_firstWindow? nonempty found

theorem ne_nil_of_lastWindow?
    {pattern : Pattern} {skipped : Option Handle} {window : List Handle}
    (nonempty : pattern ≠ []) :
    ∀ {position : Nat}, lastWindow? pattern skipped code position = some window → window ≠ []
  | 0, found => by
      cases found
  | position + 1, found => by
      unfold lastWindow? at found
      dsimp only at found
      split at found
      · rename_i here
        obtain rfl := Option.some.inj found
        split at here
        · cases here
        · exact ne_nil_of_windowAtFront? nonempty here
      · exact ne_nil_of_lastWindow? nonempty found

/-- The window of a search has a first and a last instruction. -/
theorem ne_nil_of_nearestWindow?
    {pattern : Pattern} {skipped : Option Handle} {position : Nat} {direction : Direction}
    {window : List Handle}
    (nonempty : pattern ≠ [])
    (found : nearestWindow? pattern skipped code position direction = some window) :
    window ≠ [] := by
  cases direction with
  | forward => exact ne_nil_of_firstWindow? nonempty found
  | backward => exact ne_nil_of_lastWindow? nonempty found

/-- A search that finds a window answers one with instructions in it. -/
theorem ne_nil_of_find?
    {direction : Direction} {landing : Landing} {pattern : Pattern} {window : List Handle}
    {moved : Cursor}
    (done : cursor.find? code direction landing pattern = .ok (some window, moved)) :
    window ≠ [] := by
  rcases bind_eq_ok_iff.mp done with ⟨position, _, rest⟩
  by_cases empty : pattern.isEmpty = true
  · rw [if_pos empty] at rest
    cases rest
  · rw [if_neg empty] at rest
    cases found : nearestWindow? pattern cursor.lastMatch code position direction with
    | none =>
        rw [found] at rest
        cases rest
    | some nearest =>
        rw [found] at rest
        cases rest
        exact ne_nil_of_nearestWindow? (fun nil => empty (List.isEmpty_iff.mpr nil)) found

theorem ne_nil_of_findOrFail
    {direction : Direction} {landing : Landing} {pattern : Pattern}
    {describe : Pattern → String} {window : List Handle} {moved : Cursor}
    (done : cursor.findOrFail code direction landing pattern describe = .ok (window, moved)) :
    window ≠ [] := by
  rcases bind_eq_ok_iff.mp done with ⟨⟨_ | nearest, landed⟩, found, rest⟩
  · exact absurd rest throw_ne_ok
  · cases rest
    exact ne_nil_of_find? found

theorem landStrict_eq
    {window : List Handle} (nonempty : window ≠ []) (landing : Landing) :
    landStrict code window landing = some (land code window landing) := by
  have first : window.head? = some (window.head nonempty) :=
    List.head?_eq_some_head nonempty
  have last : window.getLast? = some (window.getLast nonempty) :=
    List.getLast?_eq_some_getLast nonempty
  cases landing <;> simp [landStrict, land, first, last]

/-! ### On sound code -/

theorem findStrict_eq
    (sound : code.Sound) (cursor : Cursor) (direction : Direction) (landing : Landing)
    (pattern : Pattern) :
    cursor.findStrict code direction landing pattern =
      sure (cursor.find? code direction landing pattern) := by
  rw [findStrict, indexStrict, sound.linked.asking_eq]
  apply bind_eq_sure
  intro position _
  by_cases empty : pattern.isEmpty = true
  · rw [if_pos empty, if_pos empty]
    rfl
  · rw [if_neg empty, if_neg empty]
    cases found : nearestWindow? pattern cursor.lastMatch code position direction with
    | none => rfl
    | some window =>
        have nonempty : pattern ≠ [] := fun nil => empty (List.isEmpty_iff.mpr nil)
        dsimp only
        rw [landStrict_eq (ne_nil_of_nearestWindow? nonempty found) landing]
        rfl

theorem findOrFailStrict_eq
    (sound : code.Sound) (cursor : Cursor) (direction : Direction) (landing : Landing)
    (pattern : Pattern) (describe : Pattern → String) :
    cursor.findOrFailStrict code direction landing pattern describe =
      sure (cursor.findOrFail code direction landing pattern describe) := by
  rw [findOrFailStrict, findStrict_eq sound]
  apply bind_eq_sure
  rintro ⟨window | _, moved⟩ _
  · exact sound.linked.asking_eq _
  · rfl

theorem emitStrict_eq (sound : code.Sound) (cursor : Cursor) (instr : Instr Handle) :
    cursor.emitStrict code instr = some (cursor.emit code instr) := by
  unfold emitStrict emit
  simp only [sound.linked.along_eq, sound.linked.insertAtStrict_eq, run_sure,
    Option.bind_eq_bind, Option.bind_some]
  cases cursor.index code with
  | error error => rfl
  | ok position =>
      rcases code.insertAt cursor.next instr with rejection | ⟨handle, inserted⟩
      · rfl
      · cases cursor.pending with
        | none => rfl
        | some source =>
            simp only [Code.retargetFromStrict_eq, Option.map_some, Option.bind_some]
            rcases inserted.retargetFrom (code.referrers source) source handle with
              ⟨rejection | count, result⟩
            · rfl
            · rfl

theorem emitAllStrict_eq :
    ∀ (instrs : List (Instr Handle)) {cursor : Cursor} {code : Code},
      code.Sound → cursor.emitAllStrict code instrs = some (cursor.emitAll code instrs)
  | [], _, _, _ => rfl
  | instr :: instrs, cursor, code, sound => by
      rw [emitAllStrict, emitAll, emitStrict_eq sound]
      rcases emitted : cursor.emit code instr with ⟨error | handle, moved, next⟩
      · rfl
      · have rest : moved.emitAllStrict next instrs = some (moved.emitAll next instrs) :=
          emitAllStrict_eq instrs (sound_of_emit sound emitted)
        simp only [rest, Option.bind_eq_bind, Option.bind_some]
        rfl

theorem removeStrict_eq
    (sound : code.Sound) (cursor : Cursor) (count : Nat) (repair : Repair) :
    cursor.removeStrict code count repair = some (cursor.remove code count repair) := by
  unfold removeStrict remove
  simp only [sound.linked.along_eq, sound.linked.removeRangeStrict_eq, Option.bind_eq_bind,
    Option.bind_some]
  cases cursor.index code with
  | error error => rfl
  | ok position =>
      cases cursor.next with
      | none => rfl
      | some first =>
          dsimp only
          rcases code.removeRange first count repair with ⟨rejection | removed, result⟩
          · rfl
          · rfl

end Cursor

/-! ## Edits in several steps -/

namespace Edit

def guardStrict (code : Code) (branch : Handle) (condition : List (Instr Handle)) :
    Option Outcome :=
  match code.get branch with
  | .error rejection => some (.error (.rejected rejection), code)
  | .ok instr =>
      match instr.target?.filter fun _ => instr.opcode.isConditionalBranch with
      | none => code.along (.error (code.misfit branch .notConditionalBranch), code)
      | some target =>
          if condition.isEmpty then code.along (.error (code.misfit branch .emptyGuard), code)
          else
            let instrs := condition ++ [⟨.branchIfFalse, .target target⟩]
            match checkAll code instrs with
            | .error rejection => some (.error (.rejected rejection), code)
            | .ok () => do
                let emission ← (Cursor.fresh (code.next? branch)).emitAllStrict code instrs
                return (emission.handles, emission.code)

def insertAllBeforeStrict (anchor : Handle) :
    List (Instr Handle) → Code → Strict Rejection (List Handle × Code)
  | [], code => return ([], code)
  | instr :: instrs, code => do
      let (handle, code) ← code.insertAtStrict (some anchor) instr
      let (handles, code) ← insertAllBeforeStrict anchor instrs code
      return (handle :: handles, code)

/-- What is put before a range, checked first as a whole. -/
def placeStrict (code : Code) (first : Handle) (replacement : List (Instr Handle)) :
    Strict Rejection (List Handle × Code) := do
  sure (checkAll code replacement)
  let _ ← sure (code.get first)
  insertAllBeforeStrict first replacement code

def withdrawStrict (code : Code) : List Handle → Option Code
  | [] => some code
  | handle :: handles => do
      let shorter ← withdrawStrict code handles
      let (_, result) ← shorter.removeStrict handle .reject
      return result

/-- There must be a first one among the instructions that were inserted. -/
def replaceRangeStrict
    (code : Code) (first : Handle) (count : Nat) (replacement : List (Instr Handle)) :
    Option Outcome :=
  if replacement.isEmpty then code.along (.error (code.misfit first .emptyReplacement), code)
  else if count = 0 then code.along (.error (code.misfit first .nothingToReplace), code)
  else do
    match ← (placeStrict code first replacement).run with
    | .error rejection => return (.error (.rejected rejection), code)
    | .ok (handles, inserted) =>
        let handle ← handles.head?
        match ← inserted.removeRangeStrict first count (.to handle) with
        | (.ok _, replaced) => return (.ok handles, replaced)
        | (.error rejection, reached) =>
            let withdrawn ← withdrawStrict reached handles
            return (.error (.rejected rejection), withdrawn)

def replaceCallArgumentStrict
    (code : Code) (literal : Handle) (replacement : List (Instr Handle)) :
    Option Outcome :=
  match code.get literal with
  | .error rejection => some (.error (.rejected rejection), code)
  | .ok instr =>
      if instr.literal?.isNone then code.along (.error (code.misfit literal .notLiteral), code)
      else
        let following := match code.position? literal with
          | some position => code.lines.drop (position + 1)
          | none => []
        if callFollows following then replaceRangeStrict code literal 1 replacement
        else code.along (.error (code.misfit literal .unconsumedLiteral), code)

def hookAfterStoreStrict (code : Code) (field hook : Symbol) : Option Outcome := do
  let search := (Cursor.atStart code).findOrFailStrict code .forward .after
    [.symbol .storeField field] Pattern.text
  match ← search.run with
  | .error error => return (.error error, code)
  | .ok (_, cursor) =>
      let emission ← cursor.emitAllStrict code
        [⟨.loadArg, .argument 0⟩, ⟨.call, .symbol hook⟩]
      return (emission.handles, emission.code)

/-! ### On sound code -/

theorem guardStrict_eq
    (sound : code.Sound) (branch : Handle) (condition : List (Instr Handle)) :
    guardStrict code branch condition = some (guard code branch condition) := by
  unfold guardStrict guard
  cases code.get branch with
  | error rejection => rfl
  | ok instr =>
      dsimp only
      cases instr.target?.filter fun _ => instr.opcode.isConditionalBranch with
      | none => exact sound.linked.along_eq _
      | some target =>
          dsimp only
          by_cases empty : condition.isEmpty = true
          · rw [if_pos empty, if_pos empty]
            exact sound.linked.along_eq _
          · rw [if_neg empty, if_neg empty]
            cases checkAll code (condition ++ [⟨.branchIfFalse, .target target⟩]) with
            | error rejection => rfl
            | ok _ =>
                dsimp only
                rw [Cursor.emitAllStrict_eq _ sound]
                rfl

theorem insertAllBeforeStrict_eq (anchor : Handle) :
    ∀ (instrs : List (Instr Handle)) {code : Code},
      code.Sound →
        insertAllBeforeStrict anchor instrs code = sure (insertAllBefore anchor instrs code)
  | [], _, _ => rfl
  | instr :: instrs, code, sound => by
      rw [insertAllBeforeStrict, sound.linked.insertAtStrict_eq]
      apply bind_eq_sure
      rintro ⟨handle, inserted⟩ placed
      dsimp only
      rw [insertAllBeforeStrict_eq anchor instrs (sound.insertBefore placed)]
      exact bind_eq_sure fun _ _ => rfl

theorem placeStrict_eq
    (sound : code.Sound) (first : Handle) (replacement : List (Instr Handle)) :
    placeStrict code first replacement =
      sure (do
        checkAll code replacement
        discard <| code.get first
        insertAllBefore first replacement code) := by
  apply bind_eq_sure
  intro _ _
  rw [insertAllBeforeStrict_eq first replacement sound]
  cases code.get first <;> rfl

theorem withdrawStrict_eq (sound : code.Sound) :
    ∀ handles : List Handle, withdrawStrict code handles = some (withdraw code handles)
  | [] => rfl
  | handle :: handles => by
      have shorterSound := sound_withdraw sound handles
      have removal := shorterSound.linked.removeStrict_eq handle .reject
      simp only [withdrawStrict, withdrawStrict_eq sound handles, removal, Option.bind_eq_bind,
        Option.bind_some]
      rfl

/-- What is inserted in place of a range has a first instruction. -/
theorem exists_cons_of_insertAllBefore
    {anchor : Handle} {instrs : List (Instr Handle)} {handles : List Handle} {result : Code}
    (nonempty : instrs ≠ []) (done : insertAllBefore anchor instrs code = .ok (handles, result)) :
    ∃ handle others, handles = handle :: others := by
  rcases instrs with _ | ⟨instr, instrs⟩
  · exact absurd rfl nonempty
  · rcases bind_eq_ok_iff.mp done with ⟨⟨handle, _⟩, _, rest⟩
    rcases bind_eq_ok_iff.mp rest with ⟨⟨others, _⟩, _, answered⟩
    exact ⟨handle, others, congrArg Prod.fst (pure_eq_ok_iff.mp answered).symm⟩

theorem replaceRangeStrict_eq
    (sound : code.Sound) (first : Handle) (count : Nat) (replacement : List (Instr Handle)) :
    replaceRangeStrict code first count replacement =
      some (replaceRange code first count replacement) := by
  unfold replaceRangeStrict replaceRange
  by_cases empty : replacement.isEmpty = true
  · rw [if_pos empty, if_pos empty]
    exact sound.linked.along_eq _
  · by_cases zero : count = 0
    · rw [if_neg empty, if_neg empty, if_pos zero, if_pos zero]
      exact sound.linked.along_eq _
    · rw [if_neg empty, if_neg empty, if_neg zero, if_neg zero]
      rw [placeStrict_eq sound]
      dsimp only
      cases placed : (do
          checkAll code replacement
          discard <| code.get first
          insertAllBefore first replacement code) with
      | error rejection => rfl
      | ok result =>
          rcases result with ⟨handles, inserted⟩
          rcases bind_eq_ok_iff.mp placed with ⟨_, _, rest⟩
          rcases bind_eq_ok_iff.mp rest with ⟨_, _, placedAll⟩
          have insertedSound := sound_of_insertAllBefore sound placedAll
          rcases exists_cons_of_insertAllBefore (by simpa using empty) placedAll with
            ⟨handle, others, rfl⟩
          have removal := insertedSound.linked.removeRangeStrict_eq first count (.to handle)
          simp only [sure, ExceptT.run, ExceptT.mk, Option.bind_eq_bind, Option.bind_some,
            List.head?_cons, removal]
          rcases removed : inserted.removeRange first count (.to handle) with
            ⟨rejection | gone, reached⟩
          · have reachedSound := insertedSound.removeRange removed
            dsimp only
            rw [withdrawStrict_eq reachedSound]
            rfl
          · rfl

theorem replaceCallArgumentStrict_eq
    (sound : code.Sound) (literal : Handle) (replacement : List (Instr Handle)) :
    replaceCallArgumentStrict code literal replacement =
      some (replaceCallArgument code literal replacement) := by
  unfold replaceCallArgumentStrict replaceCallArgument
  cases code.get literal with
  | error rejection => rfl
  | ok instr =>
      dsimp only
      have misfit (misfit : Misfit) :
          code.along ((.error (code.misfit literal misfit), code) : Outcome) =
            some (.error (code.misfit literal misfit), code) :=
        sound.linked.along_eq _
      rw [misfit, misfit, replaceRangeStrict_eq sound]
      cases code.position? literal with
      | none => rw [apply_ite some, apply_ite some]
      | some position => rw [apply_ite some, apply_ite some]

theorem hookAfterStoreStrict_eq (sound : code.Sound) (field hook : Symbol) :
    hookAfterStoreStrict code field hook = some (hookAfterStore code field hook) := by
  unfold hookAfterStoreStrict hookAfterStore
  dsimp only
  rw [Cursor.findOrFailStrict_eq sound]
  cases (Cursor.atStart code).findOrFail code .forward .after
      [.symbol .storeField field] Pattern.text with
  | error error => rfl
  | ok found =>
      rcases found with ⟨window, cursor⟩
      have emission :
          cursor.emitAllStrict code [⟨.loadArg, .argument 0⟩, ⟨.call, .symbol hook⟩] =
            some (cursor.emitAll code [⟨.loadArg, .argument 0⟩, ⟨.call, .symbol hook⟩]) :=
        Cursor.emitAllStrict_eq _ sound
      simp [sure, emission]

end Edit

/-! ## Widening -/

namespace Widening

/-- The count of operands that are still to be found is lowered at each leaf. -/
def walkStrict (widening : Widening) (body : Body) :
    (pending : Nat) → List Line → Strict WalkFailure Walk
  | pending, [] => if pending = 0 then return [] else throw (.startReached pending)
  | pending, line :: lines =>
      if pending = 0 then return []
      else
        let role := line.instr.opcode.stackRole
        match role with
        | .other => throw (.at line.handle .notArithmetic)
        | .binaryOp => do
            let steps ← walkStrict widening body (pending + 1) lines
            return ⟨line.handle, role, pending + 1⟩ :: steps
        | .producer =>
            match widening.leafMisfit? body line.instr with
            | some misfit => throw (.at line.handle misfit)
            | none => do
                let rest ← access (lowered pending)
                let steps ← walkStrict widening body rest lines
                return ⟨line.handle, role, rest⟩ :: steps

def insertConversionsStrict (widening : Widening) :
    List Handle → Code → Strict Rejection (List Handle × Code)
  | [], code => return ([], code)
  | leaf :: leaves, code => do
      let (handle, code) ← code.insertAfterStrict leaf (.plain widening.conversion)
      let (handles, code) ← insertConversionsStrict widening leaves code
      return (handle :: handles, code)

/-- The count is above zero at every leaf that a walk comes to. -/
theorem walkStrict_eq (widening : Widening) (body : Body) :
    ∀ (pending : Nat) (lines : List Line),
      widening.walkStrict body pending lines = sure (widening.walk body pending lines)
  | 0, [] => rfl
  | 0, line :: lines => rfl
  | pending + 1, [] => rfl
  | pending + 1, line :: lines => by
      unfold walkStrict walk
      rw [if_neg (Nat.succ_ne_zero pending)]
      cases line.instr.opcode.stackRole with
      | other => rfl
      | binaryOp =>
          dsimp only
          rw [walkStrict_eq widening body (pending + 2) lines]
          exact bind_eq_sure fun _ _ => rfl
      | producer =>
          dsimp only
          cases widening.leafMisfit? body line.instr with
          | some misfit => rfl
          | none =>
              dsimp only
              rw [lowered_eq (Nat.succ_pos pending), Nat.succ_sub_one, access_some, sure_ok_bind,
                walkStrict_eq widening body pending lines]
              exact bind_eq_sure fun _ _ => rfl

theorem insertConversionsStrict_eq (widening : Widening) :
    ∀ (leaves : List Handle) {code : Code},
      code.Sound →
        widening.insertConversionsStrict leaves code =
          sure (widening.insertConversions leaves code)
  | [], _, _ => rfl
  | leaf :: leaves, code, sound => by
      rw [insertConversionsStrict, sound.linked.insertAfterStrict_eq]
      apply bind_eq_sure
      rintro ⟨handle, inserted⟩ placed
      dsimp only
      rw [insertConversionsStrict_eq widening leaves (sound.insertAfter placed)]
      exact bind_eq_sure fun _ _ => rfl

end Widening

def Body.widenStrict
    (body : Body) (last : Handle) (widening : Widening) :
    Strict PatchError (WideningReport × Body) := do
  let position ← liftRefusal (body.code.asking (body.code.position last))
  let reversed := (body.code.lines.take (position + 1)).reverse
  match ← access (widening.walkStrict body 1 reversed).run with
  | .error (.at handle misfit) => body.code.asking (throw (body.code.misfit handle misfit))
  | .error (.startReached pending) =>
      body.code.asking (throw (body.code.misfit last (.startReached pending)))
  | .ok walk =>
      let (conversions, code) ←
        liftRefusal (widening.insertConversionsStrict walk.leaves body.code)
      return (⟨walk, conversions⟩, { body with code })

theorem Body.widenStrict_eq
    {body : Body} (sound : body.code.Sound) (last : Handle) (widening : Widening) :
    body.widenStrict last widening = sure (body.widen last widening) := by
  rw [widenStrict, sound.linked.asking_eq, liftRefusal_sure]
  apply bind_eq_sure
  intro position _
  dsimp only
  rw [widening.walkStrict_eq, access_run_sure, sure_ok_bind]
  cases widening.walk body 1 (body.code.lines.take (position + 1)).reverse with
  | error failure =>
      rcases failure with ⟨handle, misfit⟩ | pending
      · exact sound.linked.asking_eq _
      · exact sound.linked.asking_eq _
  | ok walk =>
      dsimp only
      rw [widening.insertConversionsStrict_eq _ sound, liftRefusal_sure]
      exact bind_eq_sure fun _ _ => rfl

end BytecodePatch
