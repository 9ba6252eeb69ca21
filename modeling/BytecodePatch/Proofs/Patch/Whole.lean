import BytecodePatch.Patch.Widening
import BytecodePatch.Proofs.Code.Removal
import BytecodePatch.Proofs.Patch.Cursor

/-!
# Edits that are begun are finished

An edit that inserts several instructions makes its checks before the first of them goes in.
No insertion takes anything away, so what the checks accepted is accepted until the last one
is in, and an edit that is refused has not begun.
-/

namespace BytecodePatch

namespace Code

variable {code middle result : Code} {instr : Instr Handle} {handle : Handle}

/-! ## Code that lost nothing -/

/-- Well linked code in which everything that was live still is. -/
structure Extends (code result : Code) : Prop where
  linked : result.WellLinked
  live : ∀ handle, code.contains handle = true → result.contains handle = true

namespace Extends

theorem trans (first : Extends code middle) (second : Extends middle result) :
    Extends code result :=
  ⟨second.linked, fun handle live => second.live handle (first.live handle live)⟩

theorem check (extended : Extends code result) (accepted : code.check instr = .ok ()) :
    result.check instr = .ok () := by
  obtain ⟨fits, live⟩ := check_eq_ok_iff.mp accepted
  exact check_eq_ok_iff.mpr ⟨fits, fun ref member => extended.live ref (live ref member)⟩

/-- Code with the same handles, or more, has lost nothing. -/
private theorem of_subset
    (linked : code.WellLinked) (resultLinked : result.WellLinked)
    (subset : ∀ handle ∈ code.handles, handle ∈ result.handles) :
    Extends code result where
  linked := resultLinked
  live := by
    intro handle live
    exact resultLinked.contains_iff.mpr (subset handle (linked.contains_iff.mp live))

theorem of_inserted
    {before after : List Line}
    (linked : code.WellLinked)
    (inserted : Inserted code before after instr handle result) :
    Extends code result := by
  apply of_subset linked inserted.linked
  intro other member
  rw [handles, inserted.cut, List.map_append, List.mem_append] at member
  rw [handles, inserted.lines, List.map_append, List.map_cons, List.mem_append, List.mem_cons]
  tauto

theorem of_retargeted
    {branches : List Handle} {source destination : Handle}
    (linked : code.WellLinked)
    (retargeted : Retargeted code branches source destination result) :
    Extends code result := by
  apply of_subset linked retargeted.linked
  intro other member
  rw [handles, retargeted.lines, List.map_map]
  obtain ⟨line, lineMember, rfl⟩ := List.mem_map.mp member
  refine List.mem_map.mpr ⟨line, lineMember, ?_⟩
  simp only [Function.comp_apply]
  split <;> rfl

end Extends

/-! ## Edits that must succeed -/

theorem insertAt_eq_ok
    {anchor : Option Handle}
    (live : ∀ handle ∈ anchor, code.contains handle = true)
    (accepted : code.check instr = .ok ()) :
    code.insertAt anchor instr = .ok (code.nextHandle, code.link instr anchor) := by
  have insertEq : code.insert anchor instr = .ok (code.nextHandle, code.link instr anchor) := by
    rw [insert, accepted]
    rfl
  cases anchor with
  | none => exact insertEq
  | some anchor =>
      have required : code.require anchor = .ok () := require_eq_ok_iff.mpr (live anchor rfl)
      rw [insertAt, required]
      exact insertEq

theorem insertAfter_eq_ok
    (live : code.contains handle = true) (accepted : code.check instr = .ok ()) :
    code.insertAfter handle instr =
      .ok (code.nextHandle, code.link instr (code.next? handle)) := by
  rw [insertAfter, require_eq_ok_iff.mpr live, insert, accepted]
  rfl

theorem inserted_of_insertAt
    {anchor : Option Handle}
    (linked : code.WellLinked)
    (done : code.insertAt anchor instr = .ok (handle, result)) :
    ∃ before after, Inserted code before after instr handle result := by
  cases anchor with
  | none => exact ⟨_, _, inserted_of_append linked done⟩
  | some anchor =>
      obtain ⟨before, line, after, _, inserted⟩ := inserted_of_insertBefore linked done
      exact ⟨before, line :: after, inserted⟩

end Code

variable {code : Code} {cursor : Cursor} {instr : Instr Handle}

/-! ## Insertions at a cursor -/

namespace Cursor

/-- A cursor that is not stale has a position. -/
theorem exists_index
    (linked : code.WellLinked)
    (live : ∀ handle ∈ cursor.next, code.contains handle = true) :
    ∃ position, cursor.index code = .ok position := by
  unfold index
  cases next : cursor.next with
  | none => exact ⟨_, rfl⟩
  | some handle =>
      obtain ⟨before, line, after, cut, rfl⟩ := linked.exists_cut (live handle next)
      have placed := linked.position?_of_cut cut
      exact ⟨before.length, by simp only [placed]⟩

/-- Once an instruction is in, the branches that were there before can be moved to it. -/
private theorem exists_retargetFrom_referrers
    {anchor : Option Handle} {handle : Handle} {inserted : Code}
    (linked : code.WellLinked) (placed : code.insertAt anchor instr = .ok (handle, inserted))
    (source : Handle) :
    ∃ count result,
      inserted.retargetFrom (code.referrers source) source handle = (.ok count, result) ∧
        Code.Extends code result := by
  obtain ⟨before, after, insertion⟩ := Code.inserted_of_insertAt linked placed
  have extended := Code.Extends.of_inserted linked insertion
  have own : inserted.contains handle = true := by
    rw [insertion.linked.contains_iff, Code.handles, insertion.lines]
    simp
  have referring : ∀ branch ∈ code.referrers source, inserted.contains branch = true :=
    fun branch member => extended.live branch (linked.contains_of_mem_referrers member)
  have redirected := Code.retargetFrom_eq_ok source own referring
  have retargeted := Code.retargeted_of_retargetFrom insertion.linked redirected
  exact ⟨_, _, redirected, extended.trans (.of_retargeted insertion.linked retargeted)⟩

/-- A cursor that stands in the code or at its end can be given every instruction that the
code accepts. Moving the branches that wait for the instruction cannot fail any more. -/
theorem exists_emit
    (linked : code.WellLinked)
    (live : ∀ handle ∈ cursor.next, code.contains handle = true)
    (accepted : code.check instr = .ok ()) :
    ∃ result,
      cursor.emit code instr = (.ok code.nextHandle, { cursor with pending := none }, result) ∧
        Code.Extends code result := by
  obtain ⟨position, standing⟩ := exists_index linked live
  have placed := Code.insertAt_eq_ok live accepted
  unfold emit
  rw [standing, placed]
  cases cursor.pending with
  | none =>
      obtain ⟨before, after, inserted⟩ := Code.inserted_of_insertAt linked placed
      exact ⟨_, rfl, Code.Extends.of_inserted linked inserted⟩
  | some source =>
      obtain ⟨count, result, redirected, extended⟩ :=
        exists_retargetFrom_referrers linked placed source
      refine ⟨result, ?_, extended⟩
      dsimp only [Option.map_some]
      rw [redirected]

/-- An insertion at a cursor that is refused has changed neither the cursor nor the code. It can
only be refused before the instruction goes in, and branches wait until it does. -/
theorem eq_of_emit_eq_error
    {error : PatchError} {moved : Cursor} {result : Code}
    (linked : code.WellLinked)
    (refused : cursor.emit code instr = (.error error, moved, result)) :
    moved = cursor ∧ result = code := by
  unfold emit at refused
  split at refused
  · cases refused
    exact ⟨rfl, rfl⟩
  · dsimp only at refused
    split at refused
    · cases refused
      exact ⟨rfl, rfl⟩
    · rename_i handle inserted placed
      cases pending : cursor.pending with
      | none =>
          rw [pending] at refused
          cases refused
      | some source =>
          obtain ⟨count, final, redirected, _⟩ :=
            exists_retargetFrom_referrers linked placed source
          rw [pending] at refused
          dsimp only [Option.map_some] at refused
          rw [redirected] at refused
          cases refused

/-- A removal at a cursor that is refused has changed neither the cursor nor the code. -/
theorem eq_of_remove_eq_error
    {error : PatchError} {count : Nat} {repair : Repair} {moved : Cursor} {result : Code}
    (linked : code.WellLinked)
    (refused : cursor.remove code count repair = (.error error, moved, result)) :
    moved = cursor ∧ result = code := by
  unfold remove at refused
  split at refused
  · cases refused
    exact ⟨rfl, rfl⟩
  · split at refused
    · cases refused
      exact ⟨rfl, rfl⟩
    · dsimp only at refused
      split at refused
      · rename_i rejection reached taken
        cases refused
        exact ⟨rfl, Code.eq_of_removeRange_eq_error linked taken⟩
      · cases refused

end Cursor

/-! ## Edits in several steps -/

namespace Edit

theorem checkAll_eq_ok_iff {instrs : List (Instr Handle)} :
    checkAll code instrs = .ok () ↔ ∀ instr ∈ instrs, code.check instr = .ok () := by
  induction instrs with
  | nil => simp [checkAll]
  | cons instr instrs inductionHypothesis =>
      rw [checkAll, bind_eq_ok_iff, List.forall_mem_cons, inductionHypothesis]
      constructor
      · rintro ⟨⟨⟩, first, rest⟩
        exact ⟨first, rest⟩
      · rintro ⟨first, rest⟩
        exact ⟨(), first, rest⟩

end Edit

/-! ## Widening -/

namespace Widening

/-- A conversion goes in after each of several live instructions. -/
private theorem exists_insertConversions (widening : Widening) :
    ∀ (leaves : List Handle) {code : Code},
      code.WellLinked → (∀ leaf ∈ leaves, code.contains leaf = true) →
        ∃ handles result, widening.insertConversions leaves code = .ok (handles, result)
  | [], code, _, _ => ⟨[], code, rfl⟩
  | leaf :: leaves, code, linked, live => by
      obtain ⟨leafLive, leavesLive⟩ := List.forall_mem_cons.mp live
      have accepted : code.check (.plain widening.conversion) = .ok () := by
        cases widening <;> rfl
      have placed := Code.insertAfter_eq_ok leafLive accepted
      obtain ⟨before, line, after, _, inserted⟩ := Code.inserted_of_insertAfter linked placed
      have extended := Code.Extends.of_inserted linked inserted
      obtain ⟨handles, result, others⟩ :=
        exists_insertConversions widening leaves extended.linked
          (fun other member => extended.live other (leavesLive other member))
      refine ⟨code.nextHandle :: handles, result, ?_⟩
      exact bind_eq_ok_iff.mpr ⟨_, placed, bind_eq_ok_iff.mpr ⟨_, others, rfl⟩⟩

/-- A walk visits nothing but the lines it is given. -/
private theorem handle_mem_of_walk {widening : Widening} {body : Body} :
    ∀ {lines : List Line} {pending : Nat} {visited : Walk},
      widening.walk body pending lines = .ok visited →
        ∀ step ∈ visited, step.handle ∈ lines.map Line.handle
  | lines, 0, visited, walked => by
      rw [walk] at walked
      obtain rfl := Except.ok.inj walked
      exact List.forall_mem_nil _
  | [], _ + 1, _, walked => by
      rw [walk] at walked
      cases walked
  | line :: lines, pending + 1, visited, walked => by
      -- whatever the line is, the walk is a step at its handle and a walk over the others
      obtain ⟨remaining, left, others, othersWalked, rfl⟩ :
          ∃ remaining left others,
            widening.walk body remaining lines = .ok others ∧
              visited = ⟨line.handle, line.instr.opcode.stackRole, left⟩ :: others := by
        rw [walk] at walked
        split at walked
        · cases walked
        · obtain ⟨others, othersWalked, answered⟩ := bind_eq_ok_iff.mp walked
          exact ⟨_, _, others, othersWalked, (pure_eq_ok_iff.mp answered).symm⟩
        · split at walked
          · cases walked
          · obtain ⟨others, othersWalked, answered⟩ := bind_eq_ok_iff.mp walked
            exact ⟨_, _, others, othersWalked, (pure_eq_ok_iff.mp answered).symm⟩
      intro step member
      rw [List.map_cons, List.mem_cons]
      rcases List.mem_cons.mp member with rfl | later
      · exact Or.inl rfl
      · exact Or.inr (handle_mem_of_walk othersWalked step later)

end Widening

/-- Where the walk gets to its end, all conversions go in. So a widening that is refused
leaves the code as it was. -/
theorem Body.exists_widen
    {body : Body} {last : Handle} {widening : Widening} {position : Nat} {visited : Walk}
    (linked : body.code.WellLinked)
    (placed : body.code.position last = .ok position)
    (walked :
      widening.walk body 1 (body.code.lines.take (position + 1)).reverse = .ok visited) :
    ∃ report widened, body.widen last widening = .ok (report, widened) := by
  have live : ∀ leaf ∈ visited.leaves, body.code.contains leaf = true := by
    intro leaf member
    obtain ⟨step, stepMember, rfl⟩ := List.mem_map.mp member
    have passed := Widening.handle_mem_of_walk walked step (List.mem_of_mem_filter stepMember)
    obtain ⟨line, lineMember, same⟩ := List.mem_map.mp passed
    rw [← same, linked.contains_iff]
    exact List.mem_map_of_mem (List.mem_of_mem_take (List.mem_reverse.mp lineMember))
  obtain ⟨handles, code, inserted⟩ := widening.exists_insertConversions _ linked live
  refine ⟨⟨visited, handles⟩, { body with code := code }, ?_⟩
  refine bind_eq_ok_iff.mpr ⟨position, liftRejection_eq_ok_iff.mpr placed, ?_⟩
  dsimp only
  rw [walked]
  exact bind_eq_ok_iff.mpr ⟨_, liftRejection_eq_ok_iff.mpr inserted, rfl⟩

end BytecodePatch
