import BytecodePatch.Proofs.Patch.Pending
import BytecodePatch.Proofs.Patch.Reanchoring
import BytecodePatch.Proofs.Run.Action

/-!
# Sessions with a cursor

A session is a cursor and the code that it was made for. The cursor is moved by searches and
otherwise, instructions are inserted and removed at it, and between these steps the code is
edited in any other way, with other cursors too. A step that is refused leaves the session as
it was, except that several instructions go in up to the first refused one.

In every session the code is sound and branches wait only for the instruction at the cursor,
whether that is still live or not.
-/

namespace BytecodePatch

/-- A new cursor for code. -/
inductive Cursor.IsNew (code : Code) : Cursor → Prop where
  | atStart : IsNew code (.atStart code)
  | atEnd : IsNew code .atEnd
  | beforeLast : IsNew code (.beforeLast code)
  | before {handle : Handle} {cursor : Cursor}
      (made : Cursor.before code handle = .ok cursor) : IsNew code cursor

/-- A cursor, and the code that it was made for. -/
structure Session where
  cursor : Cursor
  code : Code
deriving DecidableEq

namespace Session

/-- A step with the cursor, or an edit of the code without it. -/
inductive Step where
  | find (direction : Direction) (landing : Landing) (pattern : Pattern)
  | findOrFail
      (direction : Direction) (landing : Landing) (pattern : Pattern)
      (describe : Pattern → String)
  | moveBefore (handle : Handle)
  | moveAfter (handle : Handle)
  | emit (instr : Instr Handle)
  | emitAll (instrs : List (Instr Handle))
  | remove (count : Nat) (repair : Repair)
  | edit (action : Action)

/-- The session after an attempt to move its cursor, which stays if the attempt is refused. -/
def after {ε α : Type} (session : Session) (moved : α → Cursor) (attempt : Except ε α) :
    Session :=
  match attempt with
  | .ok value => { session with cursor := moved value }
  | .error _ => session

/-- The session after a step. -/
def perform (session : Session) : Step → Session
  | .find direction landing pattern =>
      session.after Prod.snd (session.cursor.find? session.code direction landing pattern)
  | .findOrFail direction landing pattern describe =>
      session.after Prod.snd
        (session.cursor.findOrFail session.code direction landing pattern describe)
  | .moveBefore handle => session.after id (Cursor.before session.code handle)
  | .moveAfter handle => session.after id (Cursor.after session.code handle)
  | .emit instr =>
      let (_, cursor, code) := session.cursor.emit session.code instr
      ⟨cursor, code⟩
  | .emitAll instrs =>
      let emission := session.cursor.emitAll session.code instrs
      ⟨emission.cursor, emission.code⟩
  | .remove count repair =>
      let (_, cursor, code) := session.cursor.remove session.code count repair
      ⟨cursor, code⟩
  | .edit action => { session with code := action.perform session.code }

/-- The session after steps, one after another. -/
def run (session : Session) (steps : List Step) : Session :=
  steps.foldl perform session

/-- The code is sound, and branches wait for the instruction at the cursor only. -/
structure Sound (session : Session) : Prop where
  code : session.code.Sound
  cursor : session.cursor.Anchored

end Session

namespace Cursor

theorem anchored_of_before
    {code : Code} {handle : Handle} {cursor : Cursor}
    (made : Cursor.before code handle = .ok cursor) : cursor.Anchored := by
  unfold Cursor.before at made
  split at made
  · obtain rfl := Except.ok.inj made
    exact anchored_of_settled rfl
  · cases made

theorem anchored_of_after
    {code : Code} {handle : Handle} {cursor : Cursor}
    (made : Cursor.after code handle = .ok cursor) : cursor.Anchored := by
  unfold Cursor.after at made
  split at made
  · obtain rfl := Except.ok.inj made
    exact anchored_of_settled rfl
  · cases made

theorem IsNew.anchored {code : Code} {cursor : Cursor} (new : IsNew code cursor) :
    cursor.Anchored := by
  cases new with
  | atStart => exact anchored_of_settled rfl
  | atEnd => exact anchored_of_settled rfl
  | beforeLast => exact anchored_of_settled rfl
  | before made => exact anchored_of_before made

end Cursor

namespace Session.Sound

variable {session : Session}

private theorem after
    {ε α : Type} {moved : α → Cursor} {attempt : Except ε α}
    (sound : session.Sound)
    (kept : ∀ value, attempt = .ok value → (moved value).Anchored) :
    (session.after moved attempt).Sound := by
  cases attempt with
  | error error => exact sound
  | ok value => exact ⟨sound.code, kept value rfl⟩

/-- Every step keeps a session sound. -/
theorem perform (sound : session.Sound) (step : Step) : (session.perform step).Sound := by
  cases step with
  | find direction landing pattern => exact sound.after fun _ done => sound.cursor.of_find done
  | findOrFail direction landing pattern describe =>
      exact sound.after fun _ done => .of_findOrFail done
  | moveBefore handle => exact sound.after fun _ done => Cursor.anchored_of_before done
  | moveAfter handle => exact sound.after fun _ done => Cursor.anchored_of_after done
  | emit instr =>
      exact ⟨Cursor.sound_of_emit sound.code rfl, sound.cursor.of_emit sound.code.linked rfl⟩
  | emitAll instrs =>
      exact ⟨Cursor.sound_emitAll instrs sound.code, sound.cursor.emitAll sound.code instrs⟩
  | remove count repair =>
      exact ⟨Cursor.sound_of_remove sound.code rfl, sound.cursor.of_remove sound.code rfl⟩
  | edit action => exact ⟨sound.code.perform action, sound.cursor⟩

/-- Every run of steps keeps a session sound. -/
theorem run (sound : session.Sound) (steps : List Step) : (session.run steps).Sound := by
  induction steps generalizing session with
  | nil => exact sound
  | cons step steps inductionHypothesis => exact inductionHypothesis (sound.perform step)

end Session.Sound

/-- A session with a new cursor for reachable code is sound from its start on. -/
theorem Session.sound_of_isNew
    {start : Code} (origin : Origin start) (actions : List Action) {cursor : Cursor}
    (new : cursor.IsNew (start.run actions)) :
    (⟨cursor, start.run actions⟩ : Session).Sound :=
  ⟨origin.sound.run actions, new.anchored⟩

/-! ## Removals -/

/-- In every session, a removal at the cursor leaves it at its index, before the instruction
that followed the removed ones, and what is inserted next goes to their place without moving
any branches. If the removal is refused, nothing has changed. -/
theorem reanchoring_of_run
    {start : Code} (origin : Origin start) (actions : List Action) {cursor : Cursor}
    (new : cursor.IsNew (start.run actions)) (steps : List Session.Step)
    (count : Nat) (repair : Repair) :
    let session := (⟨cursor, start.run actions⟩ : Session).run steps
    Cursor.Reanchoring session.cursor session.code count repair
        (session.cursor.remove session.code count repair) ∧
      ∀ error moved result,
        session.cursor.remove session.code count repair = (.error error, moved, result) →
          moved = session.cursor ∧ result = session.code := by
  intro session
  have sound : session.Sound := (Session.sound_of_isNew origin actions new).run steps
  refine ⟨Cursor.reanchoring sound.code sound.cursor count repair, ?_⟩
  intro error moved result refused
  exact Cursor.eq_of_remove_eq_error sound.code.linked refused

/-- The branches into an instruction wait at the cursor when the instruction is removed. They
go to what follows it, and stay there when another instruction is inserted in its place. The
removal is refused if they may not move. -/
theorem reanchoring_of_run_waiting :
    let reached := (Code.empty 0).run
      [.append (.plain .nop), .append (.plain .dup), .append (.plain .ret),
        .append ⟨.branchIfTrue, .target ⟨0, 1⟩⟩]
    let session := (⟨.atStart reached, reached⟩ : Session).run
      [.find .forward .takingBranches [.opcode .dup]]
    Origin (.empty 0) ∧ (Cursor.atStart reached).IsNew reached ∧
      session.cursor = ⟨some ⟨0, 1⟩, some ⟨0, 1⟩, some ⟨0, 1⟩⟩ ∧
      (Cursor.Reanchoring session.cursor session.code 1 .following
          (session.cursor.remove session.code 1 .following) ∧
        ∀ error moved result,
          session.cursor.remove session.code 1 .following = (.error error, moved, result) →
            moved = session.cursor ∧ result = session.code) ∧
      (session.perform (.remove 1 .following)).cursor = ⟨some ⟨0, 2⟩, none, some ⟨0, 1⟩⟩ ∧
      (session.run [.remove 1 .following, .emit (.plain .nop)]).code.lines =
        [⟨⟨0, 0⟩, .plain .nop⟩, ⟨⟨0, 4⟩, .plain .nop⟩, ⟨⟨0, 2⟩, .plain .ret⟩,
          ⟨⟨0, 3⟩, ⟨.branchIfTrue, .target ⟨0, 2⟩⟩⟩] ∧
      (session.cursor.remove session.code 1 .reject).2 = (session.cursor, session.code) :=
  ⟨.empty 0, .atStart, by decide +kernel, reanchoring_of_run (.empty 0) _ .atStart _ 1 .following,
    by decide +kernel, by decide +kernel, by decide +kernel⟩

/-! ## Branches that wait -/

/-- In every session, branches that wait at the cursor are those into the instruction at which
it stands. So what takes them over goes in directly before that instruction, alone or at the
head of a block. A copy of the cursor has the same session up to where it was copied. -/
theorem pending_of_run
    {start : Code} (origin : Origin start) (actions : List Action) {cursor : Cursor}
    (new : cursor.IsNew (start.run actions)) (steps : List Session.Step) :
    let session := (⟨cursor, start.run actions⟩ : Session).run steps
    ∀ source,
      session.cursor.pending = some source →
        session.cursor.next = some source ∧
          (∀ instr,
            Cursor.Takeover session.cursor session.code source instr
              (session.cursor.emit session.code instr)) ∧
            ∀ instrs,
              Cursor.BlockTakeover session.cursor session.code source instrs
                (session.cursor.emitAll session.code instrs) := by
  intro session source waiting
  have sound : session.Sound := (Session.sound_of_isNew origin actions new).run steps
  have linked := sound.code.linked
  have place := sound.cursor source waiting
  exact ⟨place, Cursor.takeover linked place waiting, Cursor.blockTakeover linked place waiting⟩

/-- The branches into an instruction wait while others insert before it, a search finds nothing,
an insertion and a move are refused and the cursor removes nothing. Then a block goes in up to
its second instruction, which is refused, and the first one has taken the branches over. -/
theorem pending_of_run_refused :
    let reached := (Code.empty 0).run
      [.append (.plain .nop), .append (.plain .dup), .append (.plain .ret),
        .append ⟨.branchIfTrue, .target ⟨0, 1⟩⟩]
    let session := (⟨.atEnd, reached⟩ : Session).run
      [.find .backward .takingBranches [.opcode .dup],
        .edit (.insertBefore ⟨0, 1⟩ (.plain .pop)), .find .forward .after [.opcode .pop],
        .emit ⟨.branch, .target ⟨0, 9⟩⟩, .moveAfter ⟨0, 9⟩, .remove 0 .reject]
    let instrs : List (Instr Handle) :=
      [⟨.branch, .target ⟨0, 1⟩⟩, ⟨.branch, .target ⟨0, 9⟩⟩, .plain .nop]
    Origin (.empty 0) ∧ Cursor.atEnd.IsNew reached ∧
      session.cursor.pending = some ⟨0, 1⟩ ∧
      (session.cursor.next = some ⟨0, 1⟩ ∧
        (∀ instr,
          Cursor.Takeover session.cursor session.code ⟨0, 1⟩ instr
            (session.cursor.emit session.code instr)) ∧
          ∀ instrs,
            Cursor.BlockTakeover session.cursor session.code ⟨0, 1⟩ instrs
              (session.cursor.emitAll session.code instrs)) ∧
      (session.perform (.emitAll instrs)).cursor = ⟨some ⟨0, 1⟩, none, some ⟨0, 1⟩⟩ ∧
      (session.perform (.emitAll instrs)).code.lines =
        [⟨⟨0, 0⟩, .plain .nop⟩, ⟨⟨0, 4⟩, .plain .pop⟩, ⟨⟨0, 5⟩, ⟨.branch, .target ⟨0, 1⟩⟩⟩,
          ⟨⟨0, 1⟩, .plain .dup⟩, ⟨⟨0, 2⟩, .plain .ret⟩,
          ⟨⟨0, 3⟩, ⟨.branchIfTrue, .target ⟨0, 5⟩⟩⟩] :=
  ⟨.empty 0, .atEnd, by decide +kernel,
    pending_of_run (.empty 0) _ .atEnd _ ⟨0, 1⟩ (by decide +kernel), by decide +kernel,
    by decide +kernel⟩

end BytecodePatch
