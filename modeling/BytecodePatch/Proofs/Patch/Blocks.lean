import BytecodePatch.Proofs.Code.Sound
import BytecodePatch.Proofs.Patch.Whole

/-!
# Blocks of new lines

Several instructions that are inserted at one place stand there as a block, in their order and
under new handles, and the lines around the block stay as they are. It makes no difference
whether they went in before an instruction or at a cursor that waits for no branches.
-/

namespace BytecodePatch

namespace Code

/-- What putting several instructions between lines did. -/
structure InsertedAll
    (code : Code) (before after : List Line) (instrs : List (Instr Handle))
    (handles : List Handle) (result : Code) : Prop where
  cut : code.lines = before ++ after
  length : handles.length = instrs.length
  lines : result.lines = before ++ List.zipWith Line.mk handles instrs ++ after
  linked : result.WellLinked
  tag : result.tag = code.tag

variable {code middle result : Code} {before after : List Line} {instr : Instr Handle}
  {instrs : List (Instr Handle)} {handle : Handle} {handles : List Handle}

theorem map_handle_zipWith (length : handles.length = instrs.length) :
    (List.zipWith Line.mk handles instrs).map Line.handle = handles := by
  have first : (handles.zip instrs).map Prod.fst = handles :=
    List.map_fst_zip (Nat.le_of_eq length)
  rw [List.zip, List.map_zipWith] at first
  rw [List.map_zipWith]
  exact first

theorem map_instr_zipWith (length : handles.length = instrs.length) :
    (List.zipWith Line.mk handles instrs).map Line.instr = instrs := by
  have second : (handles.zip instrs).map Prod.snd = instrs :=
    List.map_snd_zip (Nat.le_of_eq length.symm)
  rw [List.zip, List.map_zipWith] at second
  rw [List.map_zipWith]
  exact second

/-- An instruction that the code accepts can be put at any place. -/
theorem exists_inserted_of_cut
    (linked : code.WellLinked) (cut : code.lines = before ++ after)
    (accepted : code.check instr = .ok ()) :
    ∃ result,
      code.insertAt (after.head?.map Line.handle) instr = .ok (code.nextHandle, result) ∧
        Inserted code before after instr code.nextHandle result := by
  have live :
      ∀ anchor ∈ after.head?.map Line.handle, code.contains anchor = true :=
    fun _ place => linked.contains_of_head? cut place
  refine ⟨_, insertAt_eq_ok live accepted, cut, accepted, rfl, linked.lines_link instr cut,
    linked.link instr cut, rfl, issued_link ..⟩

namespace InsertedAll

theorem nil (linked : code.WellLinked) (cut : code.lines = before ++ after) :
    InsertedAll code before after [] [] code :=
  ⟨cut, rfl, by rw [List.zipWith_nil_left, List.append_nil]; exact cut, linked, rfl⟩

theorem cons
    (first : Inserted code before after instr handle middle)
    (others : InsertedAll middle (before ++ [⟨handle, instr⟩]) after instrs handles result) :
    InsertedAll code before after (instr :: instrs) (handle :: handles) result where
  cut := first.cut
  length := congrArg Nat.succ others.length
  lines := by
    rw [others.lines, List.zipWith_cons_cons, List.append_assoc before,
      List.singleton_append]
  linked := others.linked
  tag := others.tag.trans first.tag

theorem map_handle (inserted : InsertedAll code before after instrs handles result) :
    (List.zipWith Line.mk handles instrs).map Line.handle = handles :=
  map_handle_zipWith inserted.length

theorem map_instr (inserted : InsertedAll code before after instrs handles result) :
    (List.zipWith Line.mk handles instrs).map Line.instr = instrs :=
  map_instr_zipWith inserted.length

theorem nodup (inserted : InsertedAll code before after instrs handles result) :
    handles.Nodup := by
  have distinct := inserted.linked.nodup_handles
  rw [Code.handles, inserted.lines, List.map_append, List.map_append, inserted.map_handle]
    at distinct
  exact (List.nodup_append.mp (List.nodup_append.mp distinct).1).2.1

/-- The handles of the block are on none of the lines around it. -/
theorem not_mem_handles
    (inserted : InsertedAll code before after instrs handles result)
    (member : handle ∈ handles) : handle ∉ code.handles := by
  have nodup := inserted.linked.nodup_handles
  rw [Code.handles, inserted.lines, List.map_append, List.map_append, inserted.map_handle]
    at nodup
  rw [Code.handles, inserted.cut, List.map_append]
  intro listed
  rcases List.mem_append.mp listed with inBefore | inAfter
  · have apart := (List.nodup_append.mp (List.nodup_append.mp nodup).1).2.2
    exact apart handle inBefore handle member rfl
  · have apart := (List.nodup_append.mp nodup).2.2
    exact apart handle (List.mem_append_right _ member) handle inAfter rfl

theorem contains_eq_false
    (linked : code.WellLinked)
    (inserted : InsertedAll code before after instrs handles result)
    (member : handle ∈ handles) : code.contains handle = false := by
  rw [← Bool.not_eq_true, linked.contains_iff]
  exact inserted.not_mem_handles member

theorem get?_of_not_mem
    (linked : code.WellLinked)
    (inserted : InsertedAll code before after instrs handles result)
    (outside : handle ∉ handles) : result.get? handle = code.get? handle := by
  apply Option.ext
  intro instr
  rw [inserted.linked.get?_eq_some_iff, linked.get?_eq_some_iff, inserted.lines,
    inserted.cut]
  have apart : ⟨handle, instr⟩ ∉ List.zipWith Line.mk handles instrs := fun new =>
    outside (inserted.map_handle ▸ List.mem_map_of_mem new)
  simp only [List.mem_append]
  tauto

/-- Only the line before the block has got another next line. -/
theorem next?_of_ne
    {line : Line}
    (linked : code.WellLinked)
    (inserted : InsertedAll code (before ++ [line]) after instrs handles result)
    (live : code.contains handle = true) (other : handle ≠ line.handle) :
    result.next? handle = code.next? handle := by
  obtain ⟨earlier, own, later, cut, rfl⟩ := linked.exists_cut live
  have member : own ∈ before ++ [line] ++ after := by
    rw [← inserted.cut, cut]
    exact List.mem_append_right _ List.mem_cons_self
  rcases List.mem_append.mp member with inBefore | inAfter
  · rcases List.mem_append.mp inBefore with there | last
    · obtain ⟨left, right, rfl⟩ := List.append_of_mem there
      have oldCut : code.lines = left ++ own :: (right ++ line :: after) := by
        simpa using inserted.cut
      have newCut :
          result.lines =
            left ++ own :: (right ++ line :: (List.zipWith Line.mk handles instrs ++ after)) := by
        simpa using inserted.lines
      rw [linked.next?_eq oldCut, inserted.linked.next?_eq newCut]
      cases right <;> rfl
    · exact absurd (congrArg Line.handle (List.mem_singleton.mp last)) other
  · obtain ⟨left, right, rfl⟩ := List.append_of_mem inAfter
    have oldCut : code.lines = (before ++ [line] ++ left) ++ own :: right := by
      simpa using inserted.cut
    have newCut :
        result.lines =
          (before ++ [line] ++ List.zipWith Line.mk handles instrs ++ left) ++ own :: right := by
      simpa using inserted.lines
    rw [linked.next?_eq oldCut, inserted.linked.next?_eq newCut]

/-- Nothing refers into the block: what stood there before refers to live instructions, and so
do the instructions of the block, which were accepted before it went in. -/
theorem apart
    (sound : code.Sound) (inserted : InsertedAll code before after instrs handles result)
    (accepted : ∀ instr ∈ instrs, code.check instr = .ok ()) :
    ∀ line ∈ result.lines, ∀ ref ∈ line.refs, ref ∉ handles := by
  intro line member ref refMember inBlock
  apply inserted.not_mem_handles inBlock
  rw [inserted.lines, List.append_assoc] at member
  have around : line ∈ before ++ after → ref ∈ code.handles := fun old =>
    sound.live line (inserted.cut ▸ old) ref refMember
  rcases List.mem_append.mp member with inBefore | rest
  · exact around (List.mem_append_left after inBefore)
  · rcases List.mem_append.mp rest with new | inAfter
    · have given : line.instr ∈ instrs := inserted.map_instr ▸ List.mem_map_of_mem new
      have live := (check_eq_ok_iff.mp (accepted line.instr given)).2 ref refMember
      exact sound.linked.contains_iff.mp live
    · exact around (List.mem_append_right before inAfter)

end InsertedAll

end Code

open Code

variable {code result : Code} {before after : List Line} {instr : Instr Handle}
  {instrs : List (Instr Handle)} {handle : Handle}

/-- Several instructions that the code accepts go in before one instruction as a block. -/
theorem Edit.exists_insertedAll
    {line : Line}
    (linked : code.WellLinked) (cut : code.lines = before ++ line :: after)
    (accepted : ∀ instr ∈ instrs, code.check instr = .ok ()) :
    ∃ handles result,
      insertAllBefore line.handle instrs code = .ok (handles, result) ∧
        InsertedAll code before (line :: after) instrs handles result := by
  induction instrs generalizing code before with
  | nil => exact ⟨[], code, rfl, .nil linked cut⟩
  | cons instr instrs inductionHypothesis =>
      obtain ⟨acceptedFirst, acceptedRest⟩ := List.forall_mem_cons.mp accepted
      obtain ⟨middle, placed, first⟩ := exists_inserted_of_cut linked cut acceptedFirst
      have extended := Extends.of_inserted linked first
      have middleCut :
          middle.lines = (before ++ [⟨code.nextHandle, instr⟩]) ++ line :: after := by
        rw [first.lines, List.append_assoc, List.singleton_append]
      obtain ⟨handles, result, others, inserted⟩ :=
        inductionHypothesis first.linked middleCut
          fun other member => extended.check (acceptedRest other member)
      refine ⟨code.nextHandle :: handles, result, ?_, .cons first inserted⟩
      exact bind_eq_ok_iff.mpr ⟨_, placed, bind_eq_ok_iff.mpr ⟨_, others, rfl⟩⟩

namespace Cursor

variable {cursor moved : Cursor}

/-- Several instructions that the code accepts go in at a cursor as a block, and the cursor
stays behind it. -/
theorem exists_insertedAll
    (linked : code.WellLinked) (cut : code.lines = before ++ after)
    (place : cursor.next = after.head?.map Line.handle) (settled : cursor.pending = none)
    (accepted : ∀ instr ∈ instrs, code.check instr = .ok ()) :
    ∃ handles result,
      cursor.emitAll code instrs = ⟨.ok handles, cursor, result⟩ ∧
        InsertedAll code before after instrs handles result := by
  induction instrs generalizing code before with
  | nil => exact ⟨[], code, rfl, .nil linked cut⟩
  | cons instr instrs inductionHypothesis =>
      obtain ⟨acceptedFirst, acceptedRest⟩ := List.forall_mem_cons.mp accepted
      obtain ⟨middle, placed, first⟩ := exists_inserted_of_cut linked cut acceptedFirst
      have standing : ∀ anchor ∈ cursor.next, code.contains anchor = true := by
        rw [place]
        exact fun _ head => linked.contains_of_head? cut head
      obtain ⟨emitted, emission, extended⟩ := exists_emit linked standing acceptedFirst
      obtain ⟨placedToo, same⟩ := insertAt_of_emit_of_settled settled emission
      rw [same] at emission
      rw [place] at placedToo
      obtain ⟨-, rfl⟩ := Prod.mk.inj (Except.ok.inj (placed.symm.trans placedToo))
      have middleCut :
          middle.lines = (before ++ [⟨code.nextHandle, instr⟩]) ++ after := by
        rw [first.lines, List.append_assoc, List.singleton_append]
      obtain ⟨handles, result, others, inserted⟩ :=
        inductionHypothesis first.linked middleCut
          fun other member => extended.check (acceptedRest other member)
      refine ⟨code.nextHandle :: handles, result, ?_, .cons first inserted⟩
      rw [emitAll, emission]
      dsimp only
      rw [others]
      rfl

end Cursor

end BytecodePatch
