import BytecodePatch.Code.Removal
import BytecodePatch.Code.Retargeting
import BytecodePatch.Patch.Error
import BytecodePatch.Patch.Pattern

/-!
# Cursors

A cursor is a place in code, before an instruction or at the end. It holds handles only, so
it stays at its place while instructions are inserted and removed around it, and it can be
copied. A search moves it to a window that a pattern matches; what it inserts comes out in
order before the instruction that it stands at.

A cursor remembers where its last match started, and the next search passes over that
start. After a search that lands for taking over branches, it also holds the instruction
whose branches the next insertion takes over.
-/

namespace BytecodePatch

/-- Where a search leaves the cursor: before its window, after it, or before it with the
branches into its first instruction waiting for the next insertion. -/
inductive Landing where
  | before | after | takingBranches
deriving DecidableEq

/-- A place in code. -/
structure Cursor where
  /-- The instruction at the cursor; none at the end. -/
  next : Option Handle
  /-- The instruction whose branches the next insertion takes over. -/
  pending : Option Handle
  /-- The first instruction of the last match. -/
  lastMatch : Option Handle
deriving DecidableEq

namespace Cursor

def fresh (next : Option Handle) : Cursor :=
  ⟨next, none, none⟩

def atStart (code : Code) : Cursor :=
  fresh code.first?

def atEnd : Cursor :=
  fresh none

def beforeLast (code : Code) : Cursor :=
  fresh code.last?

def before (code : Code) (handle : Handle) : Except PatchError Cursor :=
  if code.contains handle then .ok (fresh (some handle)) else .error .invalidAnchor

def after (code : Code) (handle : Handle) : Except PatchError Cursor :=
  if code.contains handle then .ok (fresh (code.next? handle)) else .error .invalidAnchor

/-- The position of a cursor, which must stand in the code; the length at the end. -/
def index (cursor : Cursor) (code : Code) : Except PatchError Nat :=
  match cursor.next with
  | none => .ok code.length
  | some handle =>
      match code.position? handle with
      | some position => .ok position
      | none => .error .invalidAnchor

def previous? (cursor : Cursor) (code : Code) : Option Handle :=
  match cursor.next with
  | none => code.last?
  | some handle => code.previous? handle

/-! ## Searches -/

def firstWindow? (pattern : Pattern) (skipped : Option Handle) :
    List Line → Option (List Handle)
  | [] => none
  | line :: lines =>
      let here :=
        if skipped = some line.handle then none else pattern.windowAtFront? (line :: lines)
      match here with
      | some window => some window
      | none => firstWindow? pattern skipped lines

def lastWindow? (pattern : Pattern) (skipped : Option Handle) (code : Code) :
    Nat → Option (List Handle)
  | 0 => none
  | position + 1 =>
      let here :=
        if skipped = code.handleAt? position then none else pattern.windowAt? code position
      match here with
      | some window => some window
      | none => lastWindow? pattern skipped code position

def nearestWindow?
    (pattern : Pattern) (skipped : Option Handle) (code : Code) (position : Nat) :
    Direction → Option (List Handle)
  | .forward => firstWindow? pattern skipped (code.lines.drop position)
  | .backward => lastWindow? pattern skipped code position

def land (code : Code) (window : List Handle) (landing : Landing) : Cursor :=
  let first := window.head?
  match landing with
  | .before => ⟨first, none, first⟩
  | .takingBranches => ⟨first, first, first⟩
  | .after => ⟨window.getLast?.bind code.next?, none, first⟩

/-- Moves a cursor to the nearest window in a direction that a pattern matches. A miss
leaves the cursor where it was. The empty pattern matches nowhere. -/
def find?
    (cursor : Cursor) (code : Code) (direction : Direction) (landing : Landing)
    (pattern : Pattern) :
    Except PatchError (Option (List Handle) × Cursor) := do
  let position ← cursor.index code
  if pattern.isEmpty then
    return (none, cursor)
  match nearestWindow? pattern cursor.lastMatch code position direction with
  | some window => return (some window, land code window landing)
  | none => return (none, cursor)

/-- The error of a search that found nothing; `description` is the pattern in text. -/
def missed
    (cursor : Cursor) (code : Code) (direction : Direction) (description : String) :
    PatchError :=
  .patternNotFound description direction (cursor.lastMatch.bind code.position?)

/-- Moves a cursor to the nearest window in a direction that a pattern matches. A miss is an
error, in which `describe` gives the text of the pattern. -/
def findOrFail
    (cursor : Cursor) (code : Code) (direction : Direction) (landing : Landing)
    (pattern : Pattern) (describe : Pattern → String) :
    Except PatchError (List Handle × Cursor) := do
  match ← cursor.find? code direction landing pattern with
  | (some window, cursor) => return (window, cursor)
  | (none, cursor) => throw (cursor.missed code direction (describe pattern))

def matchesAt (cursor : Cursor) (code : Code) (pattern : Pattern) : Bool :=
  match cursor.next.bind code.position? with
  | some position => !pattern.isEmpty && pattern.matchesFront (code.lines.drop position)
  | none => false

def matchesBefore (cursor : Cursor) (code : Code) (pattern : Pattern) : Bool :=
  match cursor.index code with
  | .ok position =>
      !pattern.isEmpty && decide (pattern.length ≤ position) &&
        pattern.matchesFront (code.lines.drop (position - pattern.length))
  | .error _ => false

/-! ## Edits at a cursor -/

/-- Inserts an instruction at the cursor, which stays before the same instruction. If
branches are pending, those into the pending instruction move to the new one, except that
the new one keeps its own targets. They are found before the insertion, and pending no longer
once it is made. -/
def emit
    (cursor : Cursor) (code : Code) (instr : Instr Handle) :
    Except PatchError Handle × Cursor × Code :=
  match cursor.index code with
  | .error error => (.error error, cursor, code)
  | .ok _ =>
      let waiting := cursor.pending.map fun source => (source, code.referrers source)
      match code.insertAt cursor.next instr with
      | .error rejection => (.error (.rejected rejection), cursor, code)
      | .ok (handle, inserted) =>
          let settled := { cursor with pending := none }
          match waiting with
          | none => (.ok handle, settled, inserted)
          | some (source, branches) =>
              match inserted.retargetFrom branches source handle with
              | (.error rejection, result) => (.error (.rejected rejection), settled, result)
              | (.ok _, result) => (.ok handle, settled, result)

/-- What came of inserting several instructions: their handles or the error that stopped
it, and the cursor and the code with those inserted before it. -/
structure Emission where
  handles : Except PatchError (List Handle)
  cursor : Cursor
  code : Code

/-- Inserts instructions one after another. Those before a refused one stay. -/
def emitAll (cursor : Cursor) (code : Code) : List (Instr Handle) → Emission
  | [] => ⟨.ok [], cursor, code⟩
  | instr :: instrs =>
      match cursor.emit code instr with
      | (.error error, cursor, code) => ⟨.error error, cursor, code⟩
      | (.ok handle, cursor, code) =>
          let rest := emitAll cursor code instrs
          { rest with handles := rest.handles.map (handle :: ·) }

/-- Removes instructions from the cursor on; answers them. The cursor moves to the
instruction that followed them, which is found before they are removed. -/
def remove
    (cursor : Cursor) (code : Code) (count : Nat) (repair : Repair) :
    Except PatchError (List (Instr Handle)) × Cursor × Code :=
  match cursor.index code with
  | .error error => (.error error, cursor, code)
  | .ok _ =>
      match cursor.next with
      | none => (.error .invalidAnchor, cursor, code)
      | some first =>
          let following := code.skip? count (some first)
          match code.removeRange first count repair with
          | (.error rejection, result) => (.error (.rejected rejection), cursor, result)
          | (.ok removed, result) =>
              let pending := cursor.pending.filter result.contains
              (.ok removed, { cursor with next := following, pending := pending }, result)

end Cursor

end BytecodePatch
