import BytecodePatch.Proofs.Code.Edits

/-!
# What a removal does

A removal cuts the lines into those before the range, the range and those after it. The
references from the lines around the range into it are mended, if there are any, and then the
range goes. It is refused before anything is mended or not at all, so that a refused removal
has changed nothing.
-/

namespace BytecodePatch.Code

variable {code result : Code} {before range after : List Line} {repair : Repair}

/-- A handle of a range is on no line outside it. -/
theorem not_mem_range_of_cut
    (linked : code.WellLinked)
    (cut : code.lines = before ++ range ++ after)
    {line : Line} (member : line ∈ before ++ after) :
    line.handle ∉ range.map Line.handle := by
  intro inRange
  have nodup := linked.nodup_handles
  rw [handles, cut, List.map_append, List.map_append] at nodup
  rcases List.mem_append.mp member with inBefore | inAfter
  · have apart := (List.nodup_append.mp (List.nodup_append.mp nodup).1).2.2
    exact apart _ (List.mem_map_of_mem inBefore) _ inRange rfl
  · have apart := (List.nodup_append.mp nodup).2.2
    exact apart _ (List.mem_append_right _ inRange) _ (List.mem_map_of_mem inAfter) rfl

/-- The references that intrude into a range are those of the lines around it. -/
theorem intruding_of_cut
    (linked : code.WellLinked)
    (cut : code.lines = before ++ range ++ after) :
    code.intruding (range.map Line.handle) =
      (before ++ after).flatMap fun line =>
        line.refs.filter (range.map Line.handle).contains := by
  have outside :
      (code.lines.filter fun line => !(range.map Line.handle).contains line.handle) =
        before ++ after := by
    rw [cut, List.filter_append, List.filter_append]
    have keepBefore :
        (before.filter fun line => !(range.map Line.handle).contains line.handle) = before := by
      apply List.filter_eq_self.mpr
      intro line member
      have apart := not_mem_range_of_cut linked cut (List.mem_append_left after member)
      simpa using apart
    have keepAfter :
        (after.filter fun line => !(range.map Line.handle).contains line.handle) = after := by
      apply List.filter_eq_self.mpr
      intro line member
      have apart := not_mem_range_of_cut linked cut (List.mem_append_right before member)
      simpa using apart
    have dropRange :
        (range.filter fun line => !(range.map Line.handle).contains line.handle) = [] := by
      apply List.filter_eq_nil_iff.mpr
      intro line member
      simpa using ⟨line, member, rfl⟩
    rw [keepBefore, keepAfter, dropRange, List.append_nil]
  rw [intruding, outside]

/-- How the references into a range are mended: not at all if there are none, else by making
them all refer to one instruction outside. -/
def Mends (before range after : List Line) (mend : Instr Handle → Instr Handle) : Prop :=
  (mend = id ∧
      ∀ line ∈ before ++ after, ∀ ref ∈ line.refs, ref ∉ range.map Line.handle) ∨
    ∃ destination ∈ (before ++ after).map Line.handle,
      mend = Instr.redirect (range.map Line.handle) destination

private theorem destination_of_repairTarget
    {hit destination : Handle}
    (linked : code.WellLinked)
    (cut : code.lines = before ++ range ++ after)
    (done :
      code.repairTarget (range.map Line.handle) (after.head?.map Line.handle) hit repair =
        .ok destination) :
    destination ∈ (before ++ after).map Line.handle := by
  unfold repairTarget at done
  cases repair with
  | reject => cases done
  | «to» handle =>
      simp only at done
      split at done
      · cases done
      · rename_i sound
        obtain rfl := Except.ok.inj done
        simp only [Bool.or_eq_true, not_or, Bool.not_eq_true', Bool.not_eq_false] at sound
        have live := linked.contains_iff.mp sound.2
        rw [handles, cut] at live
        have outside : handle ∉ range.map Line.handle := by
          simpa using sound.1
        simp only [List.map_append, List.mem_append] at live ⊢
        tauto
  | following =>
      cases after with
      | nil => cases done
      | cons line rest =>
          obtain rfl := Except.ok.inj done
          simp

theorem mends_of_redirectIntruding
    {mended : Code}
    (linked : code.WellLinked)
    (cut : code.lines = before ++ range ++ after)
    (done :
      code.redirectIntruding (range.map Line.handle) (after.head?.map Line.handle) repair =
        (.ok (), mended)) :
    ∃ mend,
      Mends before range after mend ∧ mended.WellLinked ∧
        mended.lines = code.lines.map (Line.mapInstr mend) ∧
          mended.tag = code.tag ∧ mended.issued = code.issued := by
  unfold redirectIntruding at done
  rw [intruding_of_cut linked cut] at done
  split at done
  · rename_i none
    obtain rfl := (Prod.mk.inj done).2
    refine ⟨id, Or.inl ⟨rfl, ?_⟩, linked, (List.map_id _).symm, rfl, rfl⟩
    intro line member ref refMember inRange
    rw [List.head?_eq_none_iff, List.flatMap_eq_nil_iff] at none
    have nothing := none line member
    rw [List.filter_eq_nil_iff] at nothing
    exact nothing ref refMember (List.contains_iff_mem.mpr inRange)
  · split at done
    · cases done
    · rename_i destination found
      obtain rfl := (Prod.mk.inj done).2
      have outside := destination_of_repairTarget linked cut found
      exact ⟨_, Or.inr ⟨destination, outside, rfl⟩, linked.mapInstrs _,
        code.lines_mapInstrs _, rfl, issued_mapInstrs ..⟩

/-- References that a repair refuses to send anywhere are where they were. -/
theorem eq_of_redirectIntruding_eq_error
    {range : List Handle} {following : Option Handle} {rejection : Rejection}
    (refused : code.redirectIntruding range following repair = (.error rejection, result)) :
    result = code := by
  unfold redirectIntruding at refused
  split at refused
  · cases refused
  · split at refused
    · exact (Prod.mk.inj refused).2.symm
    · cases refused

/-- What the removal of a range of lines did. -/
structure Removed
    (code : Code) (before range after : List Line) (mend : Instr Handle → Instr Handle)
    (result : Code) : Prop where
  cut : code.lines = before ++ range ++ after
  mends : Mends before range after mend
  lines : result.lines = (before ++ after).map (Line.mapInstr mend)
  linked : result.WellLinked
  tag : result.tag = code.tag
  issued : result.issued = code.issued

/-- The range from a live handle on is a part of the lines, or the code ends within it. -/
theorem range?_cases
    {first : Handle}
    (linked : code.WellLinked) (live : code.contains first = true) (count : Nat) :
    code.range? count (some first) = none ∨
      ∃ before range after,
        code.lines = before ++ range ++ after ∧ range.length = count ∧
          (count ≠ 0 → range.head?.map Line.handle = some first) ∧
            code.range? count (some first) =
              some (range.map Line.handle, after.head?.map Line.handle) := by
  rcases linked.exists_cut live with ⟨before, line, after, cut, rfl⟩
  have ranged := linked.range?_eq count before (line :: after) cut
  rw [List.head?_cons, Option.map_some] at ranged
  by_cases enough : count ≤ (line :: after).length
  · rw [if_pos enough] at ranged
    refine Or.inr ⟨before, (line :: after).take count, (line :: after).drop count, ?_,
      List.length_take_of_le enough, ?_, ranged⟩
    · rw [List.append_assoc, List.take_append_drop]
      exact cut
    · intro some
      rcases Nat.exists_eq_succ_of_ne_zero some with ⟨fewer, rfl⟩
      rfl
  · rw [if_neg enough] at ranged
    exact Or.inl ranged

/-- After mending, the range can be taken out of the lines. -/
theorem exists_unlinkAll_of_redirectIntruding
    {mended : Code}
    (linked : code.WellLinked)
    (cut : code.lines = before ++ range ++ after)
    (done :
      code.redirectIntruding (range.map Line.handle) (after.head?.map Line.handle) repair =
        (.ok (), mended)) :
    ∃ mend result,
      unlinkAll (range.map Line.handle) mended =
          (.ok (range.map fun line => mend line.instr), result) ∧
        Removed code before range after mend result := by
  obtain ⟨mend, mends, mendedLinked, mendedLines, mendedTag, mendedIssued⟩ :=
    mends_of_redirectIntruding linked cut done
  have mendedCut :
      mended.lines =
        before.map (Line.mapInstr mend) ++ range.map (Line.mapInstr mend) ++
          after.map (Line.mapInstr mend) := by
    rw [mendedLines, cut, List.map_append, List.map_append]
  obtain ⟨result, taken, resultLinked, resultLines, resultTag, resultIssued⟩ :=
    mendedLinked.unlinkAll_eq _ mendedCut
  rw [List.map_map, handle_comp_mapInstr, List.map_map] at taken
  refine ⟨mend, result, taken, cut, mends, ?_, resultLinked, resultTag.trans mendedTag,
    resultIssued.trans mendedIssued⟩
  rw [resultLines, List.map_append]

/-- A removal is refused and changes nothing, or it takes nothing out if the count is zero, and
else a range of that many lines from the given one on; the answer is their instructions after
mending. Once the references into the range are mended, nothing can be refused any more. -/
theorem removeRange_cases
    (linked : code.WellLinked) (first : Handle) (count : Nat) (repair : Repair) :
    (∃ rejection, code.removeRange first count repair = (.error rejection, code)) ∨
      (count = 0 ∧ code.removeRange first count repair = (.ok [], code)) ∨
        ∃ before range after mend result,
          range.length = count ∧ range.head?.map Line.handle = some first ∧
            Removed code before range after mend result ∧
              code.removeRange first count repair =
                (.ok (range.map fun line => mend line.instr), result) := by
  unfold removeRange
  cases live : code.require first with
  | error rejection => exact Or.inl ⟨rejection, rfl⟩
  | ok nothing =>
      dsimp only
      by_cases zero : count = 0
      · rw [if_pos zero]
        exact Or.inr (Or.inl ⟨zero, rfl⟩)
      rw [if_neg zero]
      obtain exceeded | ⟨before, range, after, cut, lengthEq, head, ranged⟩ :=
        range?_cases linked (require_eq_ok_iff.mp live) count
      · rw [exceeded]
        exact Or.inl ⟨_, rfl⟩
      rw [ranged]
      dsimp only
      cases outcome :
          code.redirectIntruding (range.map Line.handle) (after.head?.map Line.handle)
            repair with
      | mk answer mended =>
          cases answer with
          | error rejection =>
              obtain rfl := eq_of_redirectIntruding_eq_error outcome
              exact Or.inl ⟨rejection, rfl⟩
          | ok nothing =>
              obtain ⟨mend, result, taken, removed⟩ :=
                exists_unlinkAll_of_redirectIntruding linked cut outcome
              exact Or.inr (Or.inr ⟨before, range, after, mend, result, lengthEq, head zero,
                removed, taken⟩)

/-- A removal that succeeds takes nothing out if the count is zero, and else a range of that
many lines from the given one on; the answer is their instructions after mending. -/
theorem removed_of_removeRange
    {first : Handle} {count : Nat} {gone : List (Instr Handle)}
    (linked : code.WellLinked)
    (done : code.removeRange first count repair = (.ok gone, result)) :
    (count = 0 ∧ gone = [] ∧ result = code) ∨
      ∃ before range after mend,
        range.length = count ∧ range.head?.map Line.handle = some first ∧
          gone = range.map (fun line => mend line.instr) ∧
            Removed code before range after mend result := by
  obtain ⟨rejection, refused⟩ | ⟨zero, nothing⟩ |
      ⟨before, range, after, mend, final, lengthEq, head, removed, taken⟩ :=
    removeRange_cases linked first count repair
  · rw [refused] at done
    cases done
  · rw [nothing] at done
    cases done
    exact Or.inl ⟨zero, rfl, rfl⟩
  · rw [taken] at done
    cases done
    exact Or.inr ⟨before, range, after, mend, lengthEq, head, rfl, removed⟩

/-- A removal that is refused has changed nothing, as the repair is tried before anything is
taken out, and what is to be taken out is there. -/
theorem eq_of_removeRange_eq_error
    {first : Handle} {count : Nat} {rejection : Rejection}
    (linked : code.WellLinked)
    (refused : code.removeRange first count repair = (.error rejection, result)) :
    result = code := by
  obtain ⟨_, outcome⟩ | ⟨_, outcome⟩ | ⟨_, _, _, _, _, _, _, _, outcome⟩ :=
    removeRange_cases linked first count repair
  · rw [outcome] at refused
    exact (Prod.mk.inj refused).2.symm
  · rw [outcome] at refused
    cases refused
  · rw [outcome] at refused
    cases refused

/-- The removal of one instruction is that of a range of one, which answers one. -/
theorem removeRange_of_remove
    {handle : Handle} {instr : Instr Handle}
    (done : code.remove handle repair = (.ok instr, result)) :
    ∃ others, code.removeRange handle 1 repair = (.ok (instr :: others), result) := by
  unfold Code.remove at done
  split at done
  · cases done
  · cases done
  · rename_i found
    cases done
    exact ⟨_, found⟩

/-- The removal of one instruction leaves what that of a range of one leaves. -/
theorem snd_remove (code : Code) (handle : Handle) (repair : Repair) :
    (code.remove handle repair).2 = (code.removeRange handle 1 repair).2 := by
  unfold Code.remove
  split
  all_goals
    rename_i found
    rw [found]

end BytecodePatch.Code
