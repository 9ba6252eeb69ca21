import BytecodePatch.Proofs.Code.Removal

/-!
# Sound code

Code is sound when it is well linked, every operand fits its opcode and every reference is to
a live instruction of the same code. Each edit keeps code sound, and sound code passes its
verification.
-/

namespace BytecodePatch.Code

/-- The links are in order, every operand fits its opcode, and every reference is live. -/
structure Sound (code : Code) : Prop where
  linked : code.WellLinked
  shape : ∀ line ∈ code.lines, line.instr.HasShape
  live : ∀ line ∈ code.lines, ∀ ref ∈ line.refs, ref ∈ code.handles

theorem sound_empty (tag : Nat) : (empty tag).Sound where
  linked := wellLinked_empty tag
  shape := by simp
  live := by simp

/-- Code passes its verification exactly if every reference is live. -/
theorem verify_eq_ok_iff {code : Code} :
    code.verify = .ok () ↔ ∀ line ∈ code.lines, ∀ ref ∈ line.refs, code.contains ref = true := by
  unfold verify
  dsimp only
  split
  · rename_i line position found
    simp only [reduceCtorEq, false_iff]
    intro live
    obtain ⟨dangling, _⟩ := List.find?_eq_some_iff_append.mp found
    have member : line ∈ code.lines := by
      have indexed := List.mem_of_find?_eq_some found
      exact List.fst_mem_of_mem_zipIdx indexed
    have none : (line.refs.filter fun ref => !code.contains ref) = [] := by
      apply List.filter_eq_nil_iff.mpr
      intro ref refMember
      simp [live line member ref refMember]
    simp [none] at dangling
  · rename_i none
    simp only [true_iff]
    intro line member ref refMember
    obtain ⟨position, bound, lineEq⟩ := List.mem_iff_getElem.mp member
    have indexed : (line, position) ∈ code.lines.zipIdx := by
      rw [List.mem_zipIdx_iff_getElem?, ← lineEq]
      exact List.getElem?_eq_getElem bound
    have clean := List.find?_eq_none.mp none _ indexed
    by_contra dead
    have dangles : ref ∈ line.refs.filter fun ref => !code.contains ref :=
      List.mem_filter.mpr ⟨refMember, by simpa using dead⟩
    exact clean (by simpa using List.length_pos_of_mem dangles)

namespace Sound

variable {code result : Code} {before range after : List Line} {instr : Instr Handle}
  {handle anchor : Handle}

theorem verify_eq_ok (sound : code.Sound) : code.verify = .ok () :=
  verify_eq_ok_iff.mpr fun line member ref refMember =>
    sound.linked.contains_iff.mpr (sound.live line member ref refMember)

/-! ## Insertion -/

theorem of_inserted
    (sound : code.Sound)
    (inserted : Inserted code before after instr handle result) :
    result.Sound where
  linked := inserted.linked
  shape := by
    intro line member
    have fits := (check_eq_ok_iff.mp inserted.accepted).1
    rw [inserted.lines] at member
    rcases List.mem_append.mp member with inBefore | rest
    · exact sound.shape line (inserted.cut ▸ List.mem_append_left after inBefore)
    · rcases List.mem_cons.mp rest with rfl | inAfter
      · exact fits
      · exact sound.shape line (inserted.cut ▸ List.mem_append_right before inAfter)
  live := by
    have accepted := (check_eq_ok_iff.mp inserted.accepted).2
    have grown : ∀ ref ∈ code.handles, ref ∈ result.handles := by
      intro ref member
      rw [handles, inserted.cut] at member
      rw [handles, inserted.lines]
      simp only [List.map_append, List.map_cons, List.mem_append, List.mem_cons] at member ⊢
      tauto
    intro line member ref refMember
    apply grown
    rw [inserted.lines] at member
    rcases List.mem_append.mp member with inBefore | rest
    · exact sound.live line (inserted.cut ▸ List.mem_append_left after inBefore) ref refMember
    · rcases List.mem_cons.mp rest with rfl | inAfter
      · exact sound.linked.contains_iff.mp (accepted ref refMember)
      · exact
          sound.live line (inserted.cut ▸ List.mem_append_right before inAfter) ref refMember

theorem append (sound : code.Sound) (done : code.append instr = .ok (handle, result)) :
    result.Sound :=
  sound.of_inserted (inserted_of_append sound.linked done)

theorem insertBefore
    (sound : code.Sound)
    (done : code.insertBefore anchor instr = .ok (handle, result)) :
    result.Sound := by
  obtain ⟨_, _, _, _, inserted⟩ := inserted_of_insertBefore sound.linked done
  exact sound.of_inserted inserted

theorem insertAfter
    (sound : code.Sound)
    (done : code.insertAfter anchor instr = .ok (handle, result)) :
    result.Sound := by
  obtain ⟨_, _, _, _, inserted⟩ := inserted_of_insertAfter sound.linked done
  exact sound.of_inserted inserted

theorem insertAt
    {next : Option Handle}
    (sound : code.Sound)
    (done : code.insertAt next instr = .ok (handle, result)) :
    result.Sound := by
  cases next with
  | none => exact sound.append done
  | some anchor => exact sound.insertBefore done

theorem insertBeforeAt
    {position : Nat}
    (sound : code.Sound)
    (done : code.insertBeforeAt position instr = .ok (handle, result)) :
    result.Sound := by
  unfold Code.insertBeforeAt at done
  split at done
  · exact sound.append done
  · obtain ⟨anchor, _, placed⟩ := bind_eq_ok_iff.mp done
    exact sound.insertBefore placed

theorem insertAfterAt
    {position : Nat}
    (sound : code.Sound)
    (done : code.insertAfterAt position instr = .ok (handle, result)) :
    result.Sound := by
  obtain ⟨anchor, _, placed⟩ := bind_eq_ok_iff.mp done
  exact sound.insertAfter placed

/-! ## Changes in place -/

/-- Changing instructions on their lines makes code sound if their new operands fit and their
new references are live. -/
private theorem of_mapped
    (linked : result.WellLinked)
    (change : Line → Line)
    (lines : result.lines = code.lines.map change)
    (handles : ∀ line, (change line).handle = line.handle)
    (shape : ∀ line ∈ code.lines, (change line).instr.HasShape)
    (live : ∀ line ∈ code.lines, ∀ ref ∈ (change line).refs, ref ∈ code.handles) :
    result.Sound where
  linked := linked
  shape := by
    intro line member
    rw [lines] at member
    obtain ⟨old, oldMember, rfl⟩ := List.mem_map.mp member
    exact shape old oldMember
  live := by
    intro line member ref refMember
    rw [lines] at member
    obtain ⟨old, oldMember, rfl⟩ := List.mem_map.mp member
    have sameHandles : result.handles = code.handles := by
      rw [Code.handles, lines, List.map_map]
      exact List.map_congr_left fun line _ => handles line
    rw [sameHandles]
    exact live old oldMember ref refMember

theorem replaceOperand
    {operand old : Operand Handle}
    (sound : code.Sound)
    (done : code.replaceOperand handle operand = .ok (old, result)) :
    result.Sound := by
  obtain ⟨before, line, after, cut, rfl, _, accepted, lines, linked, _, _⟩ :=
    lines_of_replaceOperand sound.linked done
  obtain ⟨fits, live⟩ := check_eq_ok_iff.mp accepted
  have sameHandles : result.handles = code.handles := by
    simp [Code.handles, lines, cut]
  have parts :
      ∀ other ∈ result.lines,
        other ∈ code.lines ∨ other = ⟨line.handle, ⟨line.instr.opcode, operand⟩⟩ := by
    intro other member
    rw [lines] at member
    rw [cut]
    simp only [List.mem_append, List.mem_cons] at member ⊢
    tauto
  constructor
  · exact linked
  · intro other member
    rcases parts other member with kept | rfl
    · exact sound.shape other kept
    · exact fits
  · intro other member ref refMember
    rw [sameHandles]
    rcases parts other member with kept | rfl
    · exact sound.live other kept ref refMember
    · exact sound.linked.contains_iff.mp (live ref refMember)

theorem replaceOperandAt
    {position : Nat} {operand old : Operand Handle}
    (sound : code.Sound)
    (done : code.replaceOperandAt position operand = .ok (old, result)) :
    result.Sound := by
  obtain ⟨handle, _, replaced⟩ := bind_eq_ok_iff.mp done
  exact sound.replaceOperand replaced

theorem of_retargeted
    {branches : List Handle} {source destination : Handle}
    (sound : code.Sound) (retargeted : Retargeted code branches source destination result) :
    result.Sound := by
  refine of_mapped retargeted.linked _ retargeted.lines ?_ ?_ ?_
  · intro line
    split <;> rfl
  · intro line member
    have fits := sound.shape line member
    split
    · exact (Instr.hasShape_redirect ..).mpr fits
    · exact fits
  · intro line member ref refMember
    split at refMember
    · rcases Instr.mem_refs_redirect refMember with rfl | ⟨oldRef, _⟩
      · exact sound.linked.contains_iff.mp retargeted.live
      · exact sound.live line member ref oldRef
    · exact sound.live line member ref refMember

/-- A retargeting keeps code sound, whether it is carried out or refused. -/
theorem retargetFrom
    {branches : List Handle} {source destination : Handle} {answer : Except Rejection Nat}
    (sound : code.Sound)
    (outcome : code.retargetFrom branches source destination = (answer, result)) :
    result.Sound := by
  cases answer with
  | error rejection =>
      obtain rfl := eq_of_retargetFrom_eq_error outcome
      exact sound
  | ok count => exact sound.of_retargeted (retargeted_of_retargetFrom sound.linked outcome)

theorem retarget
    {source destination : Handle} {answer : Except Rejection Nat}
    (sound : code.Sound) (outcome : code.retarget source destination = (answer, result)) :
    result.Sound :=
  sound.retargetFrom outcome

/-! ## Removal -/

/-- After mending, the lines around a range refer only to one another. -/
private theorem live_of_mends
    {mend : Instr Handle → Instr Handle}
    (sound : code.Sound)
    (cut : code.lines = before ++ range ++ after)
    (mends : Mends before range after mend) :
    ∀ line ∈ before ++ after, ∀ ref ∈ (mend line.instr).refs,
      ref ∈ (before ++ after).map Line.handle := by
  intro line member ref refMember
  have lineMember : line ∈ code.lines := by
    rw [cut]
    simp only [List.mem_append] at member ⊢
    tauto
  have outside :
      ref ∈ code.handles → ref ∉ range.map Line.handle →
        ref ∈ (before ++ after).map Line.handle := by
    intro live apart
    rw [Code.handles, cut] at live
    simp only [List.map_append, List.mem_append] at live ⊢
    tauto
  rcases mends with ⟨rfl, apart⟩ | ⟨destination, destinationMember, rfl⟩
  · exact outside (sound.live line lineMember ref refMember) (apart line member ref refMember)
  · rcases Instr.mem_refs_redirect refMember with rfl | ⟨oldRef, apart⟩
    · exact destinationMember
    · exact outside (sound.live line lineMember ref oldRef) apart

theorem of_removed
    {mend : Instr Handle → Instr Handle}
    (sound : code.Sound)
    (removed : Removed code before range after mend result) :
    result.Sound where
  linked := removed.linked
  shape := by
    intro line member
    rw [removed.lines] at member
    obtain ⟨old, oldMember, rfl⟩ := List.mem_map.mp member
    have fits : old.instr.HasShape := by
      apply sound.shape
      rw [removed.cut]
      simp only [List.mem_append] at oldMember ⊢
      tauto
    rcases removed.mends with ⟨rfl, _⟩ | ⟨destination, _, rfl⟩
    · exact fits
    · exact (Instr.hasShape_redirect ..).mpr fits
  live := by
    intro line member ref refMember
    rw [removed.lines] at member
    obtain ⟨old, oldMember, rfl⟩ := List.mem_map.mp member
    have handlesEq : result.handles = (before ++ after).map Line.handle := by
      rw [Code.handles, removed.lines, List.map_map, handle_comp_mapInstr]
    rw [handlesEq]
    exact live_of_mends sound removed.cut removed.mends old oldMember ref refMember

/-- A removal keeps code sound, whether it is carried out or refused. -/
theorem removeRange
    {first : Handle} {count : Nat} {repair : Repair}
    {answer : Except Rejection (List (Instr Handle))}
    (sound : code.Sound) (outcome : code.removeRange first count repair = (answer, result)) :
    result.Sound := by
  obtain ⟨_, same⟩ | ⟨_, same⟩ | ⟨_, _, _, _, _, _, _, removed, same⟩ :=
    removeRange_cases sound.linked first count repair
  · cases same.symm.trans outcome
    exact sound
  · cases same.symm.trans outcome
    exact sound
  · cases same.symm.trans outcome
    exact sound.of_removed removed

theorem remove
    {repair : Repair} {answer : Except Rejection (Instr Handle)}
    (sound : code.Sound) (outcome : code.remove handle repair = (answer, result)) :
    result.Sound := by
  have left : (code.removeRange handle 1 repair).2 = result := by
    rw [← snd_remove, outcome]
  exact sound.removeRange (Prod.ext rfl left)

theorem removeAt
    {position : Nat} {repair : Repair} {answer : Except Rejection (Instr Handle)}
    (sound : code.Sound) (outcome : code.removeAt position repair = (answer, result)) :
    result.Sound := by
  unfold Code.removeAt at outcome
  split at outcome
  · cases outcome
    exact sound
  · exact sound.remove outcome

theorem removeRangeAt
    {position count : Nat} {repair : Repair} {answer : Except Rejection (List (Instr Handle))}
    (sound : code.Sound)
    (outcome : code.removeRangeAt position count repair = (answer, result)) :
    result.Sound := by
  unfold Code.removeRangeAt at outcome
  split at outcome
  · cases outcome
    exact sound
  · exact sound.removeRange outcome

end Sound

end BytecodePatch.Code
