import BytecodePatch.Proofs.Patch.Emission

/-!
# Insertions where branches wait

At a cursor at which the branches into an instruction wait, what is inserted goes in directly
before that instruction, and the branches go to the first instruction that goes in. If the
instruction is no longer live, or an inserted one is refused, the branches still wait.
-/

namespace BytecodePatch

/-- A block of new lines stands directly before a source, and the references to the source go
to the head of the block, except those in the block itself. -/
structure Code.TakenOver
    (code : Code) (source : Handle) (block : List Line) (result : Code) : Prop where
  placed :
    ∃ before line after,
      code.lines = before ++ line :: after ∧ line.handle = source ∧
        result.lines =
          before.map (Line.divert (some source) (block.head?.map Line.handle)) ++ block ++
            (line :: after).map (Line.divert (some source) (block.head?.map Line.handle))
  new : ∀ line ∈ block, code.contains line.handle = false

namespace Cursor

/-- What comes of an insertion at a cursor at which the branches into a source wait: the new
instruction takes them over, or nothing happens because the source is gone or because the
instruction is refused. -/
inductive Takeover
    (cursor : Cursor) (code : Code) (source : Handle) (instr : Instr Handle) :
    Except PatchError Handle × Cursor × Code → Prop where
  | done {handle : Handle} {result : Code}
      (taken : code.TakenOver source [⟨handle, instr⟩] result) :
      Takeover cursor code source instr (.ok handle, { cursor with pending := none }, result)
  | stale (dead : code.contains source = false) :
      Takeover cursor code source instr (.error .invalidAnchor, cursor, code)
  | rejected {rejection : Rejection}
      (live : code.contains source = true) (refused : code.check instr = .error rejection) :
      Takeover cursor code source instr (.error (.rejected rejection), cursor, code)

/-- What comes of the insertion of several instructions at such a cursor: those before the first
refused one go in as a block, and the first of them takes the branches over. -/
inductive BlockTakeover
    (cursor : Cursor) (code : Code) (source : Handle) (instrs : List (Instr Handle)) :
    Emission → Prop where
  | nothing (none : instrs = []) : BlockTakeover cursor code source instrs ⟨.ok [], cursor, code⟩
  | stale (dead : code.contains source = false) :
      BlockTakeover cursor code source instrs ⟨.error .invalidAnchor, cursor, code⟩
  | all {block : List Line} {result : Code}
      (given : instrs = block.map Line.instr) (filled : block ≠ [])
      (taken : code.TakenOver source block result) :
      BlockTakeover cursor code source instrs
        ⟨.ok (block.map Line.handle), { cursor with pending := none }, result⟩
  | stopped {block : List Line} {instr : Instr Handle} {rest : List (Instr Handle)}
      {rejection : Rejection} {result : Code}
      (given : instrs = block.map Line.instr ++ instr :: rest)
      (taken : code.TakenOver source block result)
      (refused : result.check instr = .error rejection) :
      BlockTakeover cursor code source instrs
        ⟨.error (.rejected rejection),
          { cursor with pending := if block = [] then some source else none }, result⟩

variable {cursor : Cursor} {code : Code} {source : Handle}

/-! ## One insertion -/

theorem emit_of_stale
    (place : cursor.next = some source) (dead : code.contains source = false)
    (instr : Instr Handle) :
    cursor.emit code instr = (.error .invalidAnchor, cursor, code) := by
  rw [emit, index_of_stale place dead]

theorem takeover
    (linked : code.WellLinked) (place : cursor.next = some source)
    (waiting : cursor.pending = some source) (instr : Instr Handle) :
    Takeover cursor code source instr (cursor.emit code instr) := by
  by_cases live : code.contains source = true
  · obtain ⟨before, line, after, cut, rfl⟩ := linked.exists_cut live
    cases checked : code.check instr with
    | error rejection =>
        rw [emit_of_refused linked cut place checked]
        exact .rejected live checked
    | ok accepted =>
        obtain ⟨result, emitted, _, lines⟩ := exists_emitted linked cut place checked
        rw [emitted]
        refine .done ⟨⟨before, line, after, cut, rfl, ?_⟩, ?_⟩
        · rw [lines, waiting]
          simp
        · intro new member
          obtain rfl := List.mem_singleton.mp member
          rw [← Bool.not_eq_true, linked.contains_iff]
          exact linked.nextHandle_not_mem
  · rw [Bool.not_eq_true] at live
    rw [emit_of_stale place live]
    exact .stale live

/-! ## Several insertions -/

/-- Several insertions are attempts up to the first refused one. -/
theorem exists_attempts_of_emitAll
    (cursor : Cursor) (code : Code) (instrs : List (Instr Handle)) :
    ∃ (taken : List (Instr Handle)) (handles : List Handle),
      (cursor.emitEach code taken).answers = handles.map .ok ∧
        (instrs = taken ∨
          ∃ instr rest error moved result,
            instrs = taken ++ instr :: rest ∧
              (cursor.emitEach code taken).cursor.emit (cursor.emitEach code taken).code instr =
                (.error error, moved, result) ∧
                cursor.emitAll code instrs = ⟨.error error, moved, result⟩) := by
  induction instrs generalizing cursor code with
  | nil => exact ⟨[], [], rfl, Or.inl rfl⟩
  | cons instr instrs inductionHypothesis =>
      rcases emitted : cursor.emit code instr with ⟨answer, moved, result⟩
      cases answer with
      | error error =>
          refine ⟨[], [], rfl, Or.inr ⟨instr, instrs, error, moved, result, rfl, emitted, ?_⟩⟩
          rw [emitAll, emitted]
      | ok handle =>
          obtain ⟨taken, handles, answers, outcome⟩ := inductionHypothesis moved result
          refine ⟨instr :: taken, handle :: handles, ?_, ?_⟩
          · rw [emitEach_cons taken emitted, answers]
            rfl
          · obtain rfl | ⟨refused, rest, error, last, reached, rfl, stopped, together⟩ := outcome
            · exact Or.inl rfl
            · refine Or.inr ⟨refused, rest, error, last, reached, rfl, ?_, ?_⟩
              · rw [emitEach_cons taken emitted]
                exact stopped
              · rw [emitAll, emitted]
                dsimp only
                rw [together]
                rfl

/-- If all attempts succeed, all instructions stand in the block. -/
theorem Attempts.inserted_of_answers
    {attempts : Attempts} {handles : List Handle}
    (answers : attempts.answers = handles.map .ok) (instrs : List (Instr Handle)) :
    attempts.inserted instrs = List.zipWith Line.mk handles instrs := by
  rw [Attempts.inserted, answers, List.zip_map_left, List.filterMap_map]
  change (handles.zip instrs).filterMap (fun pair => some (Line.mk pair.1 pair.2)) = _
  rw [List.filterMap_eq_map', List.map_zip_eq_zipWith]
  rfl

/-- An insertion that is refused at a place in the code is refused for its instruction. -/
theorem exists_rejection_of_emit
    {before after : List Line} {instr : Instr Handle} {error : PatchError}
    (linked : code.WellLinked) (cut : code.lines = before ++ after)
    (place : cursor.next = after.head?.map Line.handle)
    (refused : cursor.emit code instr = (.error error, cursor, code)) :
    ∃ rejection, error = .rejected rejection ∧ code.check instr = .error rejection := by
  cases checked : code.check instr with
  | ok accepted =>
      obtain ⟨result, emitted, _⟩ := exists_emitted linked cut place checked
      cases refused.symm.trans emitted
  | error rejection =>
      cases refused.symm.trans (emit_of_refused linked cut place checked)
      exact ⟨rejection, rfl, rfl⟩

theorem blockTakeover
    (linked : code.WellLinked) (place : cursor.next = some source)
    (waiting : cursor.pending = some source) (instrs : List (Instr Handle)) :
    BlockTakeover cursor code source instrs (cursor.emitAll code instrs) := by
  by_cases nothing : instrs = []
  · subst nothing
    exact .nothing rfl
  by_cases live : code.contains source = true
  · obtain ⟨before, line, after, cut, rfl⟩ := linked.exists_cut live
    obtain ⟨taken, handles, answers, outcome⟩ := exists_attempts_of_emitAll cursor code instrs
    have fills := fills_emitEach linked cut place taken
    have length : handles.length = taken.length := by
      rw [← fills.answered, answers, List.length_map]
    have inserted := Attempts.inserted_of_answers answers taken
    let block := (cursor.emitEach code taken).inserted taken
    have blockHandles : block.map Line.handle = handles := by
      rw [← Code.map_handle_zipWith length, ← inserted]
    have blockInstrs : block.map Line.instr = taken := by
      rw [← Code.map_instr_zipWith length, ← inserted]
    have moved := fills.cursor
    rw [waiting] at moved
    have takenOver : code.TakenOver line.handle block (cursor.emitEach code taken).code := by
      refine ⟨⟨before, line, after, cut, rfl, ?_⟩, fills.new linked cut⟩
      rw [fills.lines, waiting]
    obtain rfl | ⟨instr, rest, error, last, reached, rfl, refused, together⟩ := outcome
    · have filled : block ≠ [] := by
        intro empty
        rw [empty] at blockInstrs
        exact nothing blockInstrs.symm
      rw [emitAll_of_answers answers, moved, if_neg filled, ← blockHandles]
      exact .all blockInstrs.symm filled takenOver
    · have standing :
          (cursor.emitEach code taken).cursor.next =
            ((line :: after).map
              (Line.divert cursor.pending
                (block.head?.map Line.handle))).head?.map Line.handle := by
        rw [Line.head?_map_divert, fills.cursor]
        exact place
      obtain ⟨rfl, rfl⟩ := eq_of_emit_eq_error fills.linked refused
      obtain ⟨rejection, rfl, rejected⟩ :=
        exists_rejection_of_emit fills.linked fills.lines standing refused
      rw [together, moved]
      exact .stopped (by rw [blockInstrs]) takenOver rejected
  · rw [Bool.not_eq_true] at live
    obtain ⟨instr, rest, rfl⟩ := List.exists_cons_of_ne_nil nothing
    rw [emitAll, emit_of_stale place live]
    exact .stale live

end Cursor

end BytecodePatch
