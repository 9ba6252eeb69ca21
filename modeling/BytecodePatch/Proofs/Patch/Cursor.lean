import BytecodePatch.Patch.Cursor
import BytecodePatch.Proofs.Except

/-!
# What a step of a cursor did

For a search, an insertion and a removal at a cursor, all that it can have done if it was not
refused: where it left the cursor, and which edit of the code it was.
-/

namespace BytecodePatch.Cursor

variable {cursor moved : Cursor} {code result : Code}

/-- A cursor before an instruction that is gone stands nowhere. -/
theorem index_of_stale
    {handle : Handle} (next : cursor.next = some handle) (dead : code.contains handle = false) :
    cursor.index code = .error .invalidAnchor := by
  have unplaced : code.position? handle = none := by
    rw [Code.position?, if_neg (by simp [dead])]
  rw [index, next]
  dsimp only
  rw [unplaced]

/-- A search moves the cursor to the window that it found, or leaves it. -/
theorem land_of_find
    {direction : Direction} {landing : Landing} {pattern : Pattern}
    {answer : Option (List Handle)}
    (done : cursor.find? code direction landing pattern = .ok (answer, moved)) :
    moved = answer.elim cursor fun window => land code window landing := by
  obtain ⟨position, _, sought⟩ := bind_eq_ok_iff.mp done
  split at sought
  · obtain ⟨rfl, rfl⟩ := Prod.mk.inj (pure_eq_ok_iff.mp sought)
    rfl
  · split at sought <;>
      obtain ⟨rfl, rfl⟩ := Prod.mk.inj (pure_eq_ok_iff.mp sought) <;>
      rfl

/-- A search that must find something moves the cursor to the window that it found. -/
theorem eq_land_of_findOrFail
    {direction : Direction} {landing : Landing} {pattern : Pattern}
    {describe : Pattern → String} {window : List Handle}
    (done : cursor.findOrFail code direction landing pattern describe = .ok (window, moved)) :
    moved = land code window landing := by
  obtain ⟨⟨answer, found⟩, searched, given⟩ := bind_eq_ok_iff.mp done
  have landed := land_of_find searched
  cases answer with
  | none => exact absurd given throw_ne_ok
  | some there =>
      obtain ⟨rfl, rfl⟩ := Prod.mk.inj (pure_eq_ok_iff.mp given)
      exact landed

/-- An insertion at a cursor puts the instruction in at its place. If branches wait there,
those that were there before move to it, and none wait any longer. -/
theorem insertAt_of_emit
    {instr : Instr Handle} {handle : Handle}
    (done : cursor.emit code instr = (.ok handle, moved, result)) :
    ∃ inserted,
      code.insertAt cursor.next instr = .ok (handle, inserted) ∧
        moved = { cursor with pending := none } ∧
          (cursor.pending = none ∧ result = inserted ∨
            ∃ source count,
              cursor.pending = some source ∧
                inserted.retargetFrom (code.referrers source) source handle =
                  (.ok count, result)) := by
  unfold emit at done
  split at done
  · cases done
  · dsimp only at done
    split at done
    · cases done
    · rename_i inserted placed
      cases pending : cursor.pending with
      | none =>
          rw [pending] at done
          cases done
          exact ⟨result, placed, rfl, Or.inl ⟨rfl, rfl⟩⟩
      | some source =>
          rw [pending] at done
          dsimp only [Option.map_some] at done
          split at done
          · cases done
          · rename_i count final redirected
            cases done
            exact ⟨inserted, placed, rfl, Or.inr ⟨source, count, rfl, redirected⟩⟩

/-- Where no branches wait, an insertion at a cursor is one at its place and nothing else. -/
theorem insertAt_of_emit_of_settled
    {instr : Instr Handle} {handle : Handle}
    (settled : cursor.pending = none)
    (done : cursor.emit code instr = (.ok handle, moved, result)) :
    code.insertAt cursor.next instr = .ok (handle, result) ∧ moved = cursor := by
  obtain ⟨inserted, placed, rfl, ⟨_, rfl⟩ | ⟨source, count, pending, _⟩⟩ := insertAt_of_emit done
  · refine ⟨placed, ?_⟩
    rw [← settled]
  · cases settled.symm.trans pending

/-- A removal at a cursor takes out a range from its instruction on and moves the cursor behind
it. Branches wait on if the instruction that they go to is still there. -/
theorem removeRange_of_remove
    {count : Nat} {repair : Repair} {gone : List (Instr Handle)}
    (done : cursor.remove code count repair = (.ok gone, moved, result)) :
    ∃ position first,
      cursor.index code = .ok position ∧ cursor.next = some first ∧
        code.removeRange first count repair = (.ok gone, result) ∧
          moved =
            { cursor with
              next := code.skip? count (some first)
              pending := cursor.pending.filter result.contains } := by
  unfold remove at done
  split at done
  · cases done
  · rename_i position indexed
    split at done
    · cases done
    · rename_i first next
      dsimp only at done
      split at done
      · cases done
      · rename_i removed shorter taken
        cases done
        exact ⟨position, first, indexed, next, taken, rfl⟩

end BytecodePatch.Cursor
