import BytecodePatch.Proofs.Code.Editing
import BytecodePatch.Proofs.Patch.Blocks
import BytecodePatch.Proofs.Search.Landing

/-!
# Insertions at a cursor, one after another

Instructions that are offered to a cursor one after another come out as a block before the
instruction at which it stands, each under a new handle and as it was given. A refused one
changes nothing, and those after it are inserted as if it had not been offered. If branches
wait at the cursor, the first instruction that goes in takes them over, and no later one
does.
-/

namespace BytecodePatch

/-- The line with its references to a source, if one is given, made ones to a destination, if
one is given. -/
def Line.divert (source destination : Option Handle) (line : Line) : Line :=
  match source, destination with
  | some source, some destination => line.mapInstr (Instr.redirect [source] destination)
  | _, _ => line

@[simp]
theorem Line.divert_from_none (destination : Option Handle) :
    Line.divert none destination = id :=
  rfl

@[simp]
theorem Line.divert_to_none (source : Option Handle) : Line.divert source none = id := by
  cases source <;> rfl

@[simp]
theorem Line.handle_divert (source destination : Option Handle) (line : Line) :
    (line.divert source destination).handle = line.handle := by
  cases source <;> cases destination <;> rfl

theorem Line.head?_map_divert (source destination : Option Handle) (lines : List Line) :
    (lines.map (Line.divert source destination)).head?.map Line.handle =
      lines.head?.map Line.handle := by
  cases lines with
  | nil => rfl
  | cons line lines => exact congrArg some (line.handle_divert source destination)

namespace Cursor

/-- What came of attempts to insert instructions: the answer to each of them, and the cursor
and the code afterwards. -/
structure Attempts where
  answers : List (Except PatchError Handle)
  cursor : Cursor
  code : Code

/-- Attempts to insert instructions at a cursor, one after another, whether or not those
before were refused. -/
def emitEach (cursor : Cursor) (code : Code) : List (Instr Handle) → Attempts
  | [] => ⟨[], cursor, code⟩
  | instr :: instrs =>
      let (answer, cursor, code) := cursor.emit code instr
      let rest := emitEach cursor code instrs
      { rest with answers := answer :: rest.answers }

/-- The lines that the attempts inserted: the accepted instructions under their handles. -/
def Attempts.inserted (attempts : Attempts) (instrs : List (Instr Handle)) : List Line :=
  (attempts.answers.zip instrs).filterMap fun attempt =>
    attempt.1.toOption.map (⟨·, attempt.2⟩)

variable {code : Code} {cursor : Cursor} {before after : List Line} {instr : Instr Handle}
  {rejection : Rejection}

/-! ## One attempt -/

theorem emit_of_refused
    (linked : code.WellLinked) (cut : code.lines = before ++ after)
    (place : cursor.next = after.head?.map Line.handle)
    (refused : code.check instr = .error rejection) :
    cursor.emit code instr = (.error (.rejected rejection), cursor, code) := by
  have placed : code.insertAt cursor.next instr = .error rejection := by
    have insertEq : code.insert cursor.next instr = .error rejection := by
      rw [Code.insert, refused]
      rfl
    cases next : cursor.next with
    | none =>
        rw [next] at insertEq
        exact insertEq
    | some anchor =>
        have live := linked.contains_of_head? cut (place.symm.trans next)
        rw [next] at insertEq
        rw [Code.insertAt, Code.require_eq_ok_iff.mpr live]
        exact insertEq
  rw [emit, (standsAt_of_cut cut place).index linked, placed]

/-- An accepted instruction goes in at the cursor. If branches wait there, those of the lines
that were there before move to the new line, and none wait any longer. -/
theorem exists_emitted
    (linked : code.WellLinked) (cut : code.lines = before ++ after)
    (place : cursor.next = after.head?.map Line.handle)
    (accepted : code.check instr = .ok ()) :
    ∃ result,
      cursor.emit code instr =
          (.ok code.nextHandle, { cursor with pending := none }, result) ∧
        result.WellLinked ∧
          result.lines =
            before.map (Line.divert cursor.pending (some code.nextHandle)) ++
              ⟨code.nextHandle, instr⟩ ::
                after.map (Line.divert cursor.pending (some code.nextHandle)) := by
  obtain ⟨inserted, placed, insertion⟩ := Code.exists_inserted_of_cut linked cut accepted
  have live : ∀ anchor ∈ cursor.next, code.contains anchor = true := by
    rw [place]
    exact fun _ head => linked.contains_of_head? cut head
  obtain ⟨result, emitted, extended⟩ := exists_emit linked live accepted
  obtain ⟨there, placedToo, _, moves⟩ := insertAt_of_emit emitted
  rw [place] at placedToo
  obtain ⟨-, rfl⟩ := Prod.mk.inj (Except.ok.inj (placed.symm.trans placedToo))
  refine ⟨result, emitted, extended.linked, ?_⟩
  rcases moves with ⟨pending, rfl⟩ | ⟨source, count, pending, redirected⟩
  · rw [insertion.lines, pending, Line.divert_from_none, List.map_id, List.map_id]
  · have retargeted := Code.retargeted_of_retargetFrom insertion.linked redirected
    have divert :
        ∀ part : List Line, (∀ line ∈ part, line ∈ code.lines) →
          part.map (fun line =>
              if line.handle ∈ code.referrers source then
                line.mapInstr (Instr.redirect [source] code.nextHandle)
              else line) =
            part.map (Line.divert (some source) (some code.nextHandle)) :=
      fun _ old => List.map_congr_left fun line member =>
        linked.redirect_referrers source code.nextHandle (old line member)
    -- the referrers were listed before the new instruction came
    have unlisted : code.nextHandle ∉ code.referrers source := by
      intro member
      obtain ⟨line, lineMember, own⟩ := List.mem_map.mp member
      apply linked.nextHandle_not_mem
      rw [← own]
      exact List.mem_map_of_mem (List.mem_of_mem_filter lineMember)
    rw [retargeted.lines, insertion.lines, pending, List.map_append, List.map_cons,
      if_neg unlisted, divert before fun line member => cut ▸ List.mem_append_left _ member,
      divert after fun line member => cut ▸ List.mem_append_right _ member]

/-! ## Several attempts -/

/-- The attempts after the first one are made with the cursor and the code that it left. -/
theorem emitEach_cons
    {answer : Except PatchError Handle} {moved : Cursor} {result : Code}
    (instrs : List (Instr Handle)) (outcome : cursor.emit code instr = (answer, moved, result)) :
    cursor.emitEach code (instr :: instrs) =
      { moved.emitEach result instrs with
        answers := answer :: (moved.emitEach result instrs).answers } := by
  rw [emitEach, outcome]

/-- What attempts leave behind: the lines before and after the cursor with the block of new
lines between them. -/
structure Attempts.Fills
    (attempts : Attempts) (cursor : Cursor) (before after : List Line)
    (instrs : List (Instr Handle)) : Prop where
  linked : attempts.code.WellLinked
  answered : attempts.answers.length = instrs.length
  lines :
    attempts.code.lines =
      before.map (Line.divert cursor.pending
          ((attempts.inserted instrs).head?.map Line.handle)) ++
        attempts.inserted instrs ++
          after.map (Line.divert cursor.pending
            ((attempts.inserted instrs).head?.map Line.handle))
  cursor :
    attempts.cursor =
      { cursor with
        pending := if attempts.inserted instrs = [] then cursor.pending else none }

theorem fills_emitEach
    (linked : code.WellLinked) (cut : code.lines = before ++ after)
    (place : cursor.next = after.head?.map Line.handle) (instrs : List (Instr Handle)) :
    (cursor.emitEach code instrs).Fills cursor before after instrs := by
  induction instrs generalizing cursor code before after with
  | nil =>
      refine ⟨linked, rfl, ?_, rfl⟩
      rw [emitEach, cut]
      simp [Attempts.inserted]
  | cons instr instrs inductionHypothesis =>
      cases checked : code.check instr with
      | error rejection =>
          rw [emitEach_cons instrs (emit_of_refused linked cut place checked)]
          have rest := inductionHypothesis linked cut place
          exact ⟨rest.linked, congrArg Nat.succ rest.answered, rest.lines, rest.cursor⟩
      | ok accepted =>
          obtain ⟨result, emitted, resultLinked, resultLines⟩ :=
            exists_emitted linked cut place checked
          have resultCut :
              result.lines =
                (before.map (Line.divert cursor.pending (some code.nextHandle)) ++
                    [⟨code.nextHandle, instr⟩]) ++
                  after.map (Line.divert cursor.pending (some code.nextHandle)) := by
            rw [resultLines, List.append_assoc, List.singleton_append]
          have resultPlace :
              ({ cursor with pending := none } : Cursor).next =
                (after.map (Line.divert cursor.pending
                  (some code.nextHandle))).head?.map Line.handle := by
            rw [Line.head?_map_divert]
            exact place
          have rest := inductionHypothesis resultLinked resultCut resultPlace
          rw [emitEach_cons instrs emitted]
          have moved := rest.cursor
          rw [ite_self] at moved
          refine ⟨rest.linked, congrArg Nat.succ rest.answered, ?_, moved⟩
          simpa [Attempts.inserted, Except.toOption] using rest.lines

theorem StandsAt.fills_emitEach
    {position : Nat}
    (stands : cursor.StandsAt code position) (linked : code.WellLinked)
    (instrs : List (Instr Handle)) :
    (cursor.emitEach code instrs).Fills cursor (code.lines.take position)
      (code.lines.drop position) instrs := by
  apply Cursor.fills_emitEach linked (List.take_append_drop position code.lines).symm
  rw [stands.next, Code.handleAt?_eq_head?]

/-- If no branches wait at the cursor, all stays as it was around the block. -/
theorem Attempts.Fills.of_settled
    {attempts : Attempts} {instrs : List (Instr Handle)}
    (fills : attempts.Fills cursor before after instrs) (settled : cursor.pending = none) :
    attempts.cursor = cursor ∧
      attempts.code.lines = before ++ attempts.inserted instrs ++ after := by
  constructor
  · rw [fills.cursor, settled, ite_self, ← settled]
  · rw [fills.lines, settled, Line.divert_from_none, List.map_id, List.map_id]

/-- The handles of the block are on none of the lines around it. -/
theorem Attempts.Fills.new
    {attempts : Attempts} {instrs : List (Instr Handle)}
    (fills : attempts.Fills cursor before after instrs) (linked : code.WellLinked)
    (cut : code.lines = before ++ after) :
    ∀ line ∈ attempts.inserted instrs, code.contains line.handle = false := by
  intro line member
  have nodup := fills.linked.nodup_handles
  rw [Code.handles, fills.lines] at nodup
  simp only [List.map_append, List.map_map, Function.comp_def, Line.handle_divert] at nodup
  rw [← Bool.not_eq_true, linked.contains_iff, Code.handles, cut, List.map_append]
  have own := List.mem_map_of_mem (f := Line.handle) member
  intro listed
  rcases List.mem_append.mp listed with inBefore | inAfter
  · have apart := (List.nodup_append.mp (List.nodup_append.mp nodup).1).2.2
    exact apart line.handle inBefore line.handle own rfl
  · have apart := (List.nodup_append.mp nodup).2.2
    exact apart line.handle (List.mem_append_right _ own) line.handle inAfter rfl

theorem Attempts.Fills.new_of_answer
    {attempts : Attempts} {instrs : List (Instr Handle)} {handle : Handle}
    (fills : attempts.Fills cursor before after instrs) (linked : code.WellLinked)
    (cut : code.lines = before ++ after) (answered : .ok handle ∈ attempts.answers) :
    code.contains handle = false := by
  obtain ⟨place, inside, answer⟩ := List.mem_iff_getElem.mp answered
  have insideInstrs : place < instrs.length := fills.answered ▸ inside
  have paired : (.ok handle, instrs[place]) ∈ attempts.answers.zip instrs := by
    apply List.mem_iff_getElem.mpr
    refine ⟨place, ?_, ?_⟩
    · rw [List.length_zip]
      omega
    · rw [List.getElem_zip, answer]
  exact fills.new linked cut ⟨handle, instrs[place]⟩ (List.mem_filterMap.mpr ⟨_, paired, rfl⟩)

/-- No instruction goes. -/
theorem Attempts.Fills.keeps
    {attempts : Attempts} {instrs : List (Instr Handle)} {handle : Handle}
    (fills : attempts.Fills cursor before after instrs) (linked : code.WellLinked)
    (cut : code.lines = before ++ after) (live : code.contains handle = true) :
    attempts.code.contains handle = true := by
  rw [linked.contains_iff, Code.handles, cut, List.map_append] at live
  rw [fills.linked.contains_iff, Code.handles, fills.lines]
  simp only [List.map_append, List.map_map, Function.comp_def, Line.handle_divert]
  rcases List.mem_append.mp live with inBefore | inAfter
  · exact List.mem_append_left _ (List.mem_append_left _ inBefore)
  · exact List.mem_append_right _ inAfter

/-- One more attempt after others is made with the cursor and the code that they left. -/
theorem emitEach_concat
    {last : Instr Handle} {answer : Except PatchError Handle} {moved : Cursor} {result : Code}
    (instrs : List (Instr Handle))
    (outcome :
      (cursor.emitEach code instrs).cursor.emit (cursor.emitEach code instrs).code last =
        (answer, moved, result)) :
    cursor.emitEach code (instrs ++ [last]) =
      ⟨(cursor.emitEach code instrs).answers ++ [answer], moved, result⟩ := by
  induction instrs generalizing cursor code with
  | nil =>
      have first : cursor.emit code last = (answer, moved, result) := outcome
      rw [List.nil_append, emitEach_cons [] first]
      rfl
  | cons instr instrs inductionHypothesis =>
      rcases emitted : cursor.emit code instr with ⟨first, next, reached⟩
      rw [emitEach_cons instrs emitted] at outcome ⊢
      rw [List.cons_append, emitEach_cons _ emitted, inductionHypothesis outcome]
      rfl

/-- If all attempts succeed, they are one insertion of several instructions. -/
theorem emitAll_of_answers
    {instrs : List (Instr Handle)} {handles : List Handle}
    (all : (cursor.emitEach code instrs).answers = handles.map .ok) :
    cursor.emitAll code instrs =
      ⟨.ok handles, (cursor.emitEach code instrs).cursor,
        (cursor.emitEach code instrs).code⟩ := by
  induction instrs generalizing cursor code handles with
  | nil =>
      obtain rfl : handles = [] := List.map_eq_nil_iff.mp all.symm
      rfl
  | cons instr instrs inductionHypothesis =>
      rcases emitted : cursor.emit code instr with ⟨answer, moved, result⟩
      rw [emitEach_cons instrs emitted] at all ⊢
      obtain ⟨handle, others, rfl, rfl, rest⟩ := List.map_eq_cons_iff.mp all.symm
      rw [emitAll, emitted]
      dsimp only
      rw [inductionHypothesis rest.symm]
      rfl

/-! ## Taking over branches -/

/-- How attempts to insert instructions before a live instruction go, when the branches into it
wait at the cursor. -/
structure TakesOver
    (cursor : Cursor) (code : Code) (source : Handle) (instrs : List (Instr Handle))
    (attempts : Attempts) : Prop where
  answered : attempts.answers.length = instrs.length
  lines :
    ∀ before line after,
      code.lines = before ++ line :: after → line.handle = source →
        attempts.code.lines =
          before.map (Line.divert (some source)
              ((attempts.inserted instrs).head?.map Line.handle)) ++
            attempts.inserted instrs ++
              (line :: after).map (Line.divert (some source)
                ((attempts.inserted instrs).head?.map Line.handle))
  new : ∀ line ∈ attempts.inserted instrs, code.contains line.handle = false
  next : attempts.cursor.next = some source
  pending :
    attempts.cursor.pending = if attempts.inserted instrs = [] then some source else none
  /-- One more instruction goes in if its operand fits and its targets are live by then. -/
  accepted :
    ∀ instr : Instr Handle,
      instr.HasShape → (∀ ref ∈ instr.refs, attempts.code.contains ref = true) →
        (cursor.emitEach code (instrs ++ [instr])).answers =
          attempts.answers ++ [.ok attempts.code.nextHandle]
  /-- Any other is refused and changes nothing. -/
  refused :
    ∀ instr : Instr Handle,
      ¬(instr.HasShape ∧ ∀ ref ∈ instr.refs, attempts.code.contains ref = true) →
        ∃ rejection,
          cursor.emitEach code (instrs ++ [instr]) =
            { attempts with answers := attempts.answers ++ [.error (.rejected rejection)] }
  unchanged :
    ∀ instr error moved result,
      attempts.cursor.emit attempts.code instr = (.error error, moved, result) →
        moved = attempts.cursor ∧ result = attempts.code
  together :
    ∀ handles : List Handle,
      attempts.answers = handles.map .ok →
        cursor.emitAll code instrs = ⟨.ok handles, attempts.cursor, attempts.code⟩

/-- A cursor that waits at a live instruction has its branches taken over by the first
instruction that goes in, however many are refused before. -/
theorem takesOver
    {source : Handle}
    (linked : code.WellLinked) (live : code.contains source = true)
    (place : cursor.next = some source) (waiting : cursor.pending = some source)
    (instrs : List (Instr Handle)) :
    cursor.TakesOver code source instrs (cursor.emitEach code instrs) := by
  obtain ⟨before, line, after, cut, rfl⟩ := linked.exists_cut live
  have fills := fills_emitEach linked cut place instrs
  have next : (cursor.emitEach code instrs).cursor.next = some line.handle := by
    rw [fills.cursor]
    exact place
  -- where the cursor stands when one more instruction is offered
  have cutNow := fills.lines
  have placeNow :
      (cursor.emitEach code instrs).cursor.next =
        ((line :: after).map (Line.divert cursor.pending
          (((cursor.emitEach code instrs).inserted instrs).head?.map
            Line.handle))).head?.map Line.handle := by
    rw [Line.head?_map_divert]
    exact next
  refine ⟨fills.answered, ?_, fills.new linked cut, next, ?_, ?_, ?_,
    fun _ _ _ _ refused => eq_of_emit_eq_error fills.linked refused,
    fun _ => emitAll_of_answers⟩
  · intro before' line' after' cut' same
    rw [← waiting]
    exact (fills_emitEach linked cut' (by rw [place, ← same]; rfl) instrs).lines
  · rw [fills.cursor, waiting]
  · intro instr fits targets
    obtain ⟨result, emitted, _⟩ :=
      exists_emitted fills.linked cutNow placeNow (Code.check_eq_ok_iff.mpr ⟨fits, targets⟩)
    rw [emitEach_concat instrs emitted]
  · intro instr unfit
    cases checked : (cursor.emitEach code instrs).code.check instr with
    | ok accepted => exact absurd (Code.check_eq_ok_iff.mp checked) unfit
    | error rejection =>
        refine ⟨rejection, ?_⟩
        rw [emitEach_concat instrs (emit_of_refused fills.linked cutNow placeNow checked)]

end Cursor

end BytecodePatch
