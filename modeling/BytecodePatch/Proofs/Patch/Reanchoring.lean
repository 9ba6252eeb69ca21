import BytecodePatch.Proofs.Code.Ranges
import BytecodePatch.Proofs.Patch.Emission
import BytecodePatch.Proofs.Patch.Sound

/-!
# Cursors after removals

A removal at a cursor takes out the instructions from the cursor on and leaves it before the
one that followed them, at the index at which it was. What is inserted next stands where the
removed instructions stood.

Branches wait at a cursor only for the instruction at which it stands. Every search, insertion
and removal keeps it so. Hence no branches wait after a removal, except of nothing.
-/

namespace BytecodePatch.Cursor

/-- Branches that wait at the cursor go to the instruction at which it stands. -/
def Anchored (cursor : Cursor) : Prop :=
  ∀ source, cursor.pending = some source → cursor.next = some source

/-- The cursor takes an instruction, which then stands at a position. Branches that waited at
the cursor go to it, and nothing else changes. -/
def Takes (cursor : Cursor) (code : Code) (position : Nat) (instr : Instr Handle) : Prop :=
  ∃ result,
    cursor.emit code instr = (.ok code.nextHandle, { cursor with pending := none }, result) ∧
      result.lines =
        (code.lines.take position).map (Line.divert cursor.pending (some code.nextHandle)) ++
          ⟨code.nextHandle, instr⟩ ::
            (code.lines.drop position).map (Line.divert cursor.pending (some code.nextHandle))

/-- The cursor takes an instruction, which then stands at a position, and nothing else
changes. -/
def TakesAlone (cursor : Cursor) (code : Code) (position : Nat) (instr : Instr Handle) : Prop :=
  ∃ result,
    cursor.emit code instr = (.ok code.nextHandle, cursor, result) ∧
      result.lines =
        code.lines.take position ++ ⟨code.nextHandle, instr⟩ :: code.lines.drop position

/-- What a removal at a cursor did: the instructions from the cursor on are gone, the cursor is
at the same index, and what is inserted next goes to their place. -/
structure Reanchored
    (cursor : Cursor) (code : Code) (count : Nat) (repair : Repair)
    (before range after : List Line) (gone : List (Instr Handle)) (moved : Cursor)
    (result : Code) : Prop where
  cut : code.lines = before ++ range ++ after
  length : range.length = count
  stood : cursor.next = (range ++ after).head?.map Line.handle
  oldIndex : cursor.index code = .ok before.length
  opcodes : gone.map Instr.opcode = range.map fun line => line.instr.opcode
  lines : result.lines = (before ++ after).map (Line.mapInstr (repair.mend range after))
  next : moved.next = after.head?.map Line.handle
  index : moved.index result = .ok before.length
  live : ∀ handle ∈ moved.next, result.contains handle = true
  lastMatch : moved.lastMatch = cursor.lastMatch
  nothing : count = 0 → moved = cursor ∧ result = code
  settled : count ≠ 0 → moved.pending = none
  takes : ∀ instr, result.check instr = .ok () → moved.Takes result before.length instr
  takesAlone :
    count ≠ 0 →
      ∀ instr, result.check instr = .ok () → moved.TakesAlone result before.length instr

/-- What comes of a removal at a cursor: it is made, or it is refused because the cursor is at
the end or stale or because the removal of the range is refused, and then the cursor and the code
are as they were. -/
inductive Reanchoring (cursor : Cursor) (code : Code) (count : Nat) (repair : Repair) :
    Except PatchError (List (Instr Handle)) × Cursor × Code → Prop where
  | done {before range after : List Line} {gone : List (Instr Handle)} {moved : Cursor}
      {result : Code}
      (reanchored :
        Reanchored cursor code count repair before range after gone moved result) :
      Reanchoring cursor code count repair (.ok gone, moved, result)
  | ended (next : cursor.next = none) :
      Reanchoring cursor code count repair (.error .invalidAnchor, cursor, code)
  | stale {handle : Handle} (next : cursor.next = some handle)
      (dead : code.contains handle = false) :
      Reanchoring cursor code count repair (.error .invalidAnchor, cursor, code)
  | rejected {first : Handle} {rejection : Rejection}
      (next : cursor.next = some first) (live : code.contains first = true)
      (refused : (code.removeRange first count repair).1 = .error rejection) :
      Reanchoring cursor code count repair (.error (.rejected rejection), cursor, code)

variable {cursor moved : Cursor} {code result : Code} {count : Nat} {repair : Repair}

/-! ## Removals -/

private theorem remove_of_ended (next : cursor.next = none) :
    cursor.remove code count repair = (.error .invalidAnchor, cursor, code) := by
  rw [remove, Cursor.index, next]

private theorem remove_of_stale
    {handle : Handle} (next : cursor.next = some handle) (dead : code.contains handle = false) :
    cursor.remove code count repair = (.error .invalidAnchor, cursor, code) := by
  rw [remove, index_of_stale next dead]

private theorem exists_index_of_live
    {first : Handle}
    (linked : code.WellLinked) (next : cursor.next = some first)
    (live : code.contains first = true) :
    ∃ position, cursor.index code = .ok position := by
  apply exists_index linked
  intro handle there
  obtain rfl := Option.some.inj (next.symm.trans there)
  exact live

/-- If the removal of the range is refused, so is the removal at a cursor before it. -/
private theorem remove_of_refused
    {first : Handle} {rejection : Rejection}
    (linked : code.WellLinked) (next : cursor.next = some first)
    (live : code.contains first = true)
    (refused : code.removeRange first count repair = (.error rejection, result)) :
    cursor.remove code count repair = (.error (.rejected rejection), cursor, result) := by
  obtain ⟨position, standing⟩ := exists_index_of_live linked next live
  simp only [remove, standing, next, refused]

/-- If the range is removed, a cursor before it moves on. -/
private theorem remove_of_removed
    {first : Handle} {gone : List (Instr Handle)}
    (linked : code.WellLinked) (next : cursor.next = some first)
    (live : code.contains first = true)
    (removed : code.removeRange first count repair = (.ok gone, result)) :
    cursor.remove code count repair =
      (.ok gone,
        { cursor with
          next := code.skip? count (some first)
          pending := cursor.pending.filter result.contains },
        result) := by
  obtain ⟨position, standing⟩ := exists_index_of_live linked next live
  simp only [remove, standing, next, removed]

/-- An instruction of a range that was removed is gone. -/
private theorem contains_eq_false_of_removed
    {before range after : List Line} {mend : Instr Handle → Instr Handle} {line : Line}
    (linked : code.WellLinked) (cut : code.lines = before ++ range ++ after)
    (resultLinked : result.WellLinked)
    (lines : result.lines = (before ++ after).map (Line.mapInstr mend))
    (member : line ∈ range) :
    result.contains line.handle = false := by
  rw [← Bool.not_eq_true, resultLinked.contains_iff, Code.handles, lines, List.map_map,
    Code.handle_comp_mapInstr]
  intro outside
  obtain ⟨other, otherMember, same⟩ := List.mem_map.mp outside
  apply Code.not_mem_range_of_cut linked cut otherMember
  rw [same]
  exact List.mem_map_of_mem member

/-- What is inserted at a cursor stands at its position. -/
private theorem StandsAt.takes
    {position : Nat} {instr : Instr Handle}
    (stands : cursor.StandsAt code position) (linked : code.WellLinked)
    (accepted : code.check instr = .ok ()) : cursor.Takes code position instr := by
  have cut : code.lines = code.lines.take position ++ code.lines.drop position :=
    (List.take_append_drop position code.lines).symm
  have place : cursor.next = (code.lines.drop position).head?.map Line.handle := by
    rw [stands.next, Code.handleAt?_eq_head?]
  obtain ⟨result, emitted, _, lines⟩ := exists_emitted linked cut place accepted
  exact ⟨result, emitted, lines⟩

private theorem Takes.alone
    {position : Nat} {instr : Instr Handle}
    (takes : cursor.Takes code position instr) (settled : cursor.pending = none) :
    cursor.TakesAlone code position instr := by
  obtain ⟨result, emitted, lines⟩ := takes
  have same : { cursor with pending := none } = cursor := by
    rw [← settled]
  rw [same] at emitted
  rw [settled, Line.divert_from_none, List.map_id, List.map_id] at lines
  exact ⟨result, emitted, lines⟩

/-- Branches that wait do so after the removal of nothing only. -/
private theorem filter_pending_of_removed
    {before range after : List Line} {first : Handle} {mend : Instr Handle → Instr Handle}
    (linked : code.WellLinked) (cut : code.lines = before ++ range ++ after)
    (starts : (range ++ after).head?.map Line.handle = some first)
    (next : cursor.next = some first) (anchored : cursor.Anchored)
    (resultLinked : result.WellLinked)
    (lines : result.lines = (before ++ after).map (Line.mapInstr mend))
    (filled : range ≠ []) :
    cursor.pending.filter result.contains = none := by
  cases pending : cursor.pending with
  | none => rfl
  | some source =>
      obtain rfl := Option.some.inj ((anchored source pending).symm.trans next)
      obtain ⟨line, rest, rfl⟩ := List.exists_cons_of_ne_nil filled
      obtain rfl : line.handle = source := Option.some.inj starts
      have dead :=
        contains_eq_false_of_removed linked cut resultLinked lines List.mem_cons_self
      simp [dead]

/-- The removal of nothing leaves the cursor as it is. -/
private theorem eq_self_of_removed_nothing
    {first : Handle}
    (next : cursor.next = some first) (live : code.contains first = true)
    (anchored : cursor.Anchored) :
    ({ cursor with
      next := code.skip? 0 (some first)
      pending := cursor.pending.filter code.contains } : Cursor) = cursor := by
  have pending : cursor.pending.filter code.contains = cursor.pending := by
    cases waiting : cursor.pending with
    | none => rfl
    | some source =>
        obtain rfl := Option.some.inj ((anchored source waiting).symm.trans next)
        rw [Option.filter_some, if_pos live]
  rw [pending, Code.skip?, ← next]

/-- What a removal did that was not refused. -/
private theorem reanchored_of_removeRange
    {before range after : List Line} {first : Handle} {gone : List (Instr Handle)}
    (sound : code.Sound) (anchored : cursor.Anchored)
    (next : cursor.next = some first)
    (removed : code.removeRange first count repair = (.ok gone, result))
    (spans : code.Spans first count before range after)
    (opcodes : gone.map Instr.opcode = range.map fun line => line.instr.opcode)
    (lines : result.lines = (before ++ after).map (Line.mapInstr (repair.mend range after)))
    (movedEq :
      moved =
        { cursor with
          next := code.skip? count (some first)
          pending := cursor.pending.filter result.contains }) :
    Reanchored cursor code count repair before range after gone moved result := by
  have linked := sound.linked
  have resultLinked := (sound.removeRange removed).linked
  have cut : code.lines = before ++ (range ++ after) := by
    rw [spans.cut, List.append_assoc]
  have stands := standsAt_of_cut cut (next.trans spans.first.symm)
  -- the steps along the links lead past the range that is removed
  have behind : moved.next = after.head?.map Line.handle := by
    rw [movedEq, ← spans.first, linked.skip?_eq count before _ cut, ← spans.length,
      List.drop_left]
  have resultCut :
      result.lines =
        before.map (Line.mapInstr (repair.mend range after)) ++
          after.map (Line.mapInstr (repair.mend range after)) := by
    rw [lines, List.map_append]
  have place :
      moved.next =
        (after.map (Line.mapInstr (repair.mend range after))).head?.map Line.handle := by
    rw [behind, List.head?_map, Option.map_map, Code.handle_comp_mapInstr]
  have movedStands : moved.StandsAt result before.length := by
    have there := standsAt_of_cut resultCut place
    rwa [List.length_map] at there
  have settled : count ≠ 0 → moved.pending = none := by
    intro positive
    have filled : range ≠ [] := by
      rintro rfl
      exact positive spans.length.symm
    rw [movedEq]
    exact filter_pending_of_removed linked spans.cut spans.first next anchored resultLinked lines
      filled
  have takes :
      ∀ instr, result.check instr = .ok () → moved.Takes result before.length instr :=
    fun _ accepted => movedStands.takes resultLinked accepted
  refine ⟨spans.cut, spans.length, next.trans spans.first.symm, stands.index linked, opcodes,
    lines, behind, movedStands.index resultLinked, ?_, ?_, ?_, settled, takes, ?_⟩
  · intro handle standing
    exact resultLinked.contains_of_head? resultCut (place.symm.trans standing)
  · rw [movedEq]
  · rintro rfl
    have live := spans.contains_first linked
    have nothing := (linked.removesExactly first 0 repair).nothing live rfl
    cases nothing.symm.trans removed
    refine ⟨?_, rfl⟩
    rw [movedEq]
    exact eq_self_of_removed_nothing next live anchored
  · exact fun positive instr accepted => (takes instr accepted).alone (settled positive)

/-- Every removal at a cursor at which branches wait for its own instruction only. -/
theorem reanchoring
    (sound : code.Sound) (anchored : cursor.Anchored) (count : Nat) (repair : Repair) :
    Reanchoring cursor code count repair (cursor.remove code count repair) := by
  cases next : cursor.next with
  | none =>
      rw [remove_of_ended next]
      exact .ended next
  | some first =>
      by_cases live : code.contains first = true
      · rcases removed : code.removeRange first count repair with ⟨rejection | gone, result⟩
        · rw [remove_of_refused sound.linked next live removed]
          obtain rfl := Code.eq_of_removeRange_eq_error sound.linked removed
          exact .rejected next live (congrArg Prod.fst removed)
        · rw [remove_of_removed sound.linked next live removed]
          obtain ⟨_, before, range, after, spans, opcodes, lines⟩ :=
            (sound.linked.removesExactly first count repair).removes gone result removed
          exact .done
            (reanchored_of_removeRange sound anchored next removed spans opcodes lines rfl)
      · rw [Bool.not_eq_true] at live
        rw [remove_of_stale next live]
        exact .stale next live

/-! ## Branches that wait -/

theorem anchored_of_settled (settled : cursor.pending = none) : cursor.Anchored := by
  intro source pending
  cases settled.symm.trans pending

theorem anchored_land (code : Code) (window : List Handle) (landing : Landing) :
    (land code window landing).Anchored := by
  cases landing with
  | before => exact anchored_of_settled rfl
  | takingBranches => exact fun _ pending => pending
  | after => exact anchored_of_settled rfl

namespace Anchored

variable {direction : Direction} {landing : Landing} {pattern : Pattern}

theorem of_find
    {answer : Option (List Handle)}
    (anchored : cursor.Anchored)
    (done : cursor.find? code direction landing pattern = .ok (answer, moved)) :
    moved.Anchored := by
  rw [land_of_find done]
  cases answer with
  | none => exact anchored
  | some window => exact anchored_land code window landing

theorem of_findOrFail
    {describe : Pattern → String} {window : List Handle}
    (done : cursor.findOrFail code direction landing pattern describe = .ok (window, moved)) :
    moved.Anchored := by
  rw [eq_land_of_findOrFail done]
  exact anchored_land code window landing

theorem of_emit
    {instr : Instr Handle} {answer : Except PatchError Handle}
    (anchored : cursor.Anchored) (linked : code.WellLinked)
    (outcome : cursor.emit code instr = (answer, moved, result)) : moved.Anchored := by
  cases answer with
  | error error =>
      obtain ⟨rfl, -⟩ := eq_of_emit_eq_error linked outcome
      exact anchored
  | ok handle =>
      obtain ⟨_, _, rfl, _⟩ := insertAt_of_emit outcome
      exact anchored_of_settled rfl

theorem emitAll
    (anchored : cursor.Anchored) (sound : code.Sound) (instrs : List (Instr Handle)) :
    (cursor.emitAll code instrs).cursor.Anchored := by
  induction instrs generalizing cursor code with
  | nil => exact anchored
  | cons instr instrs inductionHypothesis =>
      unfold Cursor.emitAll
      split
      · rename_i refused
        exact anchored.of_emit sound.linked refused
      · rename_i emitted
        exact inductionHypothesis (anchored.of_emit sound.linked emitted)
          (sound_of_emit sound emitted)

theorem of_remove
    {answer : Except PatchError (List (Instr Handle))}
    (anchored : cursor.Anchored) (sound : code.Sound)
    (outcome : cursor.remove code count repair = (answer, moved, result)) : moved.Anchored := by
  have removal := reanchoring sound anchored count repair
  rw [outcome] at removal
  cases removal with
  | done reanchored =>
      by_cases zero : count = 0
      · rw [(reanchored.nothing zero).1]
        exact anchored
      · exact anchored_of_settled (reanchored.settled zero)
  | ended => exact anchored
  | stale => exact anchored
  | rejected => exact anchored

end Anchored

end BytecodePatch.Cursor
