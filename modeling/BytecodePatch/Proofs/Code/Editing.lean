import BytecodePatch.Proofs.Code.Reading
import BytecodePatch.Proofs.Code.Removal

/-!
# Editing code as a list

Each edit that succeeds acts on the lines of well linked code as on a plain list: it puts a
line in, changes lines or takes lines out, at the place that its name says. Where an edit is
given a position, it is the edit at the handle of that position, or it is refused.
-/

namespace BytecodePatch.Code

/-- Each insertion puts one line with a new handle into the list. -/
structure InsertsAsList (code : Code) : Prop where
  append :
    ∀ instr handle result,
      code.append instr = .ok (handle, result) →
        Inserted code code.lines [] instr handle result
  insertAtEnd :
    ∀ instr handle result,
      code.insertAt none instr = .ok (handle, result) →
        Inserted code code.lines [] instr handle result
  insertAt :
    ∀ anchor instr handle result,
      code.insertAt (some anchor) instr = .ok (handle, result) →
        ∃ before line after,
          line.handle = anchor ∧ Inserted code before (line :: after) instr handle result
  insertBefore :
    ∀ anchor instr handle result,
      code.insertBefore anchor instr = .ok (handle, result) →
        ∃ before line after,
          line.handle = anchor ∧ Inserted code before (line :: after) instr handle result
  insertAfter :
    ∀ anchor instr handle result,
      code.insertAfter anchor instr = .ok (handle, result) →
        ∃ before line after,
          line.handle = anchor ∧ Inserted code (before ++ [line]) after instr handle result
  insertBeforeAt :
    ∀ position instr handle result,
      code.insertBeforeAt position instr = .ok (handle, result) →
        result.position? handle = some position ∧
          Inserted code (code.lines.take position) (code.lines.drop position) instr handle result
  insertAfterAt :
    ∀ position instr handle result,
      code.insertAfterAt position instr = .ok (handle, result) →
        result.position? handle = some (position + 1) ∧
          Inserted code (code.lines.take (position + 1)) (code.lines.drop (position + 1))
            instr handle result
  fresh : code.nextHandle ∉ code.handles

/-- Every other edit changes lines in place or takes a range of them out. -/
structure ChangesAsList (code : Code) : Prop where
  replaceOperand :
    ∀ handle operand old result,
      code.replaceOperand handle operand = .ok (old, result) →
        ∃ before line after,
          code.lines = before ++ line :: after ∧ line.handle = handle ∧
            old = line.instr.operand ∧
              result.lines = before ++ ⟨handle, ⟨line.instr.opcode, operand⟩⟩ :: after
  retargetFrom :
    ∀ branches source destination count result,
      code.retargetFrom branches source destination = (.ok count, result) →
        result.lines = code.lines.map fun line =>
          if line.handle ∈ branches then line.mapInstr (Instr.redirect [source] destination)
          else line
  retarget :
    ∀ source destination count result,
      code.retarget source destination = (.ok count, result) →
        result.lines = code.lines.map (Line.mapInstr (Instr.redirect [source] destination))
  removeNothing :
    ∀ first repair gone result,
      code.removeRange first 0 repair = (.ok gone, result) → gone = [] ∧ result = code
  removeRange :
    ∀ first count repair gone result,
      code.removeRange first (count + 1) repair = (.ok gone, result) →
        ∃ before range after mend,
          range.length = count + 1 ∧ range.head?.map Line.handle = some first ∧
            gone = range.map (fun line => mend line.instr) ∧
              Removed code before range after mend result
  remove :
    ∀ handle repair instr result,
      code.remove handle repair = (.ok instr, result) →
        ∃ before line after mend,
          line.handle = handle ∧ instr = mend line.instr ∧
            Removed code before [line] after mend result

/-- Edits by position are the edits at the handle there, and refused beyond the end, but for
the insertion at the end itself. -/
structure EditsByPosition (code : Code) : Prop where
  inside :
    ∀ position handle,
      code.handleAt? position = some handle →
        (∀ instr, code.insertBeforeAt position instr = code.insertBefore handle instr) ∧
          (∀ instr, code.insertAfterAt position instr = code.insertAfter handle instr) ∧
          (∀ operand,
            code.replaceOperandAt position operand = code.replaceOperand handle operand) ∧
          (∀ repair, code.removeAt position repair = code.remove handle repair) ∧
          ∀ count repair,
            code.removeRangeAt position count repair = code.removeRange handle count repair
  atEnd : ∀ instr, code.insertBeforeAt code.length instr = code.append instr
  outside :
    ∀ position,
      code.length ≤ position →
        (∀ instr,
          position ≠ code.length →
            code.insertBeforeAt position instr =
              .error (.positionOutOfRange position code.length)) ∧
          (∀ instr,
            code.insertAfterAt position instr =
              .error (.positionOutOfRange position code.length)) ∧
          (∀ operand,
            code.replaceOperandAt position operand =
              .error (.positionOutOfRange position code.length)) ∧
          (∀ repair,
            code.removeAt position repair =
              (.error (.positionOutOfRange position code.length), code)) ∧
          ∀ count repair,
            code.removeRangeAt position count repair =
              (.error (.positionOutOfRange position code.length), code)

namespace WellLinked

variable {code result : Code} {instr : Instr Handle} {handle : Handle} {position : Nat}

/-! ## Insertion -/

private theorem position?_of_inserted
    {before after : List Line}
    (inserted : Inserted code before after instr handle result) :
    result.position? handle = some before.length :=
  inserted.linked.position?_of_cut inserted.lines

/-- An insertion after some number of lines goes between the lines up to there and the
others. -/
private theorem inserted_take_drop
    {before after : List Line}
    (inserted : Inserted code before after instr handle result)
    (length : before.length = position) :
    result.position? handle = some position ∧
      Inserted code (code.lines.take position) (code.lines.drop position) instr handle
        result := by
  subst length
  have takeEq : code.lines.take before.length = before := by
    rw [inserted.cut, List.take_left]
  have dropEq : code.lines.drop before.length = after := by
    rw [inserted.cut, List.drop_left]
  rw [takeEq, dropEq]
  exact ⟨position?_of_inserted inserted, inserted⟩

private theorem length_of_handleAt?
    (linked : code.WellLinked) {before after : List Line} {line : Line}
    (cut : code.lines = before ++ line :: after)
    (found : code.handleAt? position = some line.handle) :
    before.length = position := by
  have placed := linked.position?_eq_some_iff.mpr found
  rw [linked.position?_of_cut cut] at placed
  exact Option.some.inj placed

theorem insertsAsList (linked : code.WellLinked) : code.InsertsAsList where
  append := fun _ _ _ done => inserted_of_append linked done
  insertAtEnd := fun _ _ _ done => inserted_of_append linked done
  insertAt := fun _ _ _ _ done => inserted_of_insertBefore linked done
  insertBefore := fun _ _ _ _ done => inserted_of_insertBefore linked done
  insertAfter := fun _ _ _ _ done => inserted_of_insertAfter linked done
  insertBeforeAt := by
    intro position instr handle result done
    unfold Code.insertBeforeAt at done
    split at done
    · rename_i atEnd
      have inserted := inserted_of_append linked done
      exact inserted_take_drop inserted (linked.length_eq.symm.trans atEnd.symm)
    · obtain ⟨anchor, named, placed⟩ := bind_eq_ok_iff.mp done
      obtain ⟨before, line, after, rfl, inserted⟩ := inserted_of_insertBefore linked placed
      have length :=
        length_of_handleAt? linked inserted.cut (handleAt_eq_ok_iff.mp named)
      exact inserted_take_drop inserted length
  insertAfterAt := by
    intro position instr handle result done
    obtain ⟨anchor, named, placed⟩ := bind_eq_ok_iff.mp done
    obtain ⟨before, line, after, rfl, inserted⟩ := inserted_of_insertAfter linked placed
    have cut : code.lines = before ++ line :: after := by
      simpa using inserted.cut
    have length := length_of_handleAt? linked cut (handleAt_eq_ok_iff.mp named)
    apply inserted_take_drop inserted
    rw [List.length_append, List.length_singleton, length]
  fresh := linked.nextHandle_not_mem

/-! ## Changes -/

/-- An instruction is listed among the referrers of a handle exactly if it refers to it. -/
private theorem mem_referrers_iff
    (linked : code.WellLinked) {line : Line} (member : line ∈ code.lines) :
    line.handle ∈ code.referrers handle ↔ handle ∈ line.refs := by
  rw [referrers, List.mem_map]
  constructor
  · rintro ⟨other, otherMember, same⟩
    obtain ⟨otherLine, refers⟩ := List.mem_filter.mp otherMember
    have sameInstr : some other.instr = some line.instr := by
      rw [← linked.get?_of_mem otherLine, ← linked.get?_of_mem member, same]
    rw [Line.refs, ← Option.some.inj sameInstr]
    exact List.contains_iff_mem.mp refers
  · intro refers
    exact ⟨line, List.mem_filter.mpr ⟨member, List.contains_iff_mem.mpr refers⟩, rfl⟩

/-- Redirecting the instructions that refer to the source is redirecting all of them. -/
theorem redirect_referrers
    (linked : code.WellLinked) (source destination : Handle) {line : Line}
    (member : line ∈ code.lines) :
    (if line.handle ∈ code.referrers source then
        line.mapInstr (Instr.redirect [source] destination)
      else line) =
      line.mapInstr (Instr.redirect [source] destination) := by
  split
  · rfl
  · rename_i absent
    have apart : source ∉ line.refs :=
      fun refers => absent ((mem_referrers_iff linked member).mpr refers)
    rw [Line.mapInstr, Instr.redirect_eq_self]
    intro ref refMember isSource
    rw [List.mem_singleton.mp isSource] at refMember
    exact apart refMember

theorem exists_retarget
    {destination : Handle}
    (linked : code.WellLinked) (source : Handle) (live : code.contains destination = true) :
    ∃ count result, code.retarget source destination = (.ok count, result) :=
  ⟨_, _, retargetFrom_eq_ok source live fun _ member =>
    linked.contains_of_mem_referrers member⟩

private theorem lines_of_retarget
    {source destination : Handle} {count : Nat}
    (linked : code.WellLinked)
    (done : code.retarget source destination = (.ok count, result)) :
    result.lines = code.lines.map (Line.mapInstr (Instr.redirect [source] destination)) := by
  rw [(retargeted_of_retargetFrom linked done).lines]
  exact List.map_congr_left fun _ member => linked.redirect_referrers source destination member

theorem changesAsList (linked : code.WellLinked) : code.ChangesAsList where
  replaceOperand := by
    intro handle operand old result done
    obtain ⟨before, line, after, cut, same, oldEq, _, lines, _⟩ :=
      lines_of_replaceOperand linked done
    exact ⟨before, line, after, cut, same, oldEq, lines⟩
  retargetFrom := fun _ _ _ _ _ done => (retargeted_of_retargetFrom linked done).lines
  retarget := fun _ _ _ _ done => lines_of_retarget linked done
  removeNothing := by
    intro first repair gone result done
    rcases removed_of_removeRange linked done with ⟨_, nothing, same⟩ | removed
    · exact ⟨nothing, same⟩
    · obtain ⟨_, range, _, _, length, starts, _⟩ := removed
      rw [List.eq_nil_of_length_eq_zero length] at starts
      cases starts
  removeRange := by
    intro first count repair gone result done
    rcases removed_of_removeRange linked done with ⟨zero, _⟩ | removed
    · exact absurd zero (Nat.succ_ne_zero count)
    · exact removed
  remove := by
    intro handle repair instr result done
    obtain ⟨others, taken⟩ := removeRange_of_remove done
    rcases removed_of_removeRange linked taken with ⟨one, _⟩ | removed
    · cases one
    · obtain ⟨before, range, after, mend, length, starts, gone, removed⟩ := removed
      obtain ⟨line, rfl⟩ := List.length_eq_one_iff.mp length
      obtain ⟨rfl, -⟩ := List.cons.inj gone
      exact ⟨before, line, after, mend, Option.some.inj starts, rfl, removed⟩

/-! ## Positions -/

theorem editsByPosition (linked : code.WellLinked) : code.EditsByPosition where
  inside := by
    intro position handle found
    have named : code.handleAt position = .ok handle := handleAt_eq_ok_iff.mpr found
    have notEnd : position ≠ code.length := by
      have inside := (linked.readsAsList.occupied position).mp ⟨handle, found⟩
      exact Nat.ne_of_lt inside
    refine ⟨fun instr => ?_, fun instr => ?_, fun operand => ?_, fun repair => ?_,
      fun count repair => ?_⟩
    · rw [Code.insertBeforeAt, if_neg notEnd, named]
      rfl
    · rw [Code.insertAfterAt, named]
      rfl
    · rw [Code.replaceOperandAt, named]
      rfl
    · rw [Code.removeAt, named]
    · rw [Code.removeRangeAt, named]
  atEnd := fun _ => if_pos rfl
  outside := by
    intro position beyond
    have vacant : code.handleAt? position = none := by
      rw [← Option.not_isSome_iff_eq_none, Option.isSome_iff_exists,
        linked.readsAsList.occupied position]
      exact Nat.not_lt.mpr beyond
    have refused :
        code.handleAt position = .error (.positionOutOfRange position code.length) := by
      rw [handleAt, vacant]
    refine ⟨fun instr notEnd => ?_, fun instr => ?_, fun operand => ?_, fun repair => ?_,
      fun count repair => ?_⟩
    · rw [Code.insertBeforeAt, if_neg notEnd, refused]
      rfl
    · rw [Code.insertAfterAt, refused]
      rfl
    · rw [Code.replaceOperandAt, refused]
      rfl
    · rw [Code.removeAt, refused]
    · rw [Code.removeRangeAt, refused]

end WellLinked

end BytecodePatch.Code
