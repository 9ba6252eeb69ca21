import BytecodePatch.Proofs.Code.Changes
import BytecodePatch.Proofs.Except
import BytecodePatch.Proofs.Instr

/-!
# What a successful edit does

For each edit of code that keeps all instructions, what must have been true if it succeeded
and what the lines are afterwards. The forms of insertion say in common where the new line
stands. Retargeting hands back the code also when it is refused, and then it is the same code.
-/

namespace BytecodePatch

theorem Instr.checkShape_eq_ok_iff {Ref : Type} {instr : Instr Ref} :
    instr.checkShape = .ok () ↔ instr.HasShape := by
  unfold Instr.checkShape
  split
  · rename_i fits
    simp [fits]
  · rename_i misfit
    simp [misfit]

namespace Code

/-! ## Checks -/

theorem require_eq_ok_iff {code : Code} {handle : Handle} :
    code.require handle = .ok () ↔ code.contains handle = true := by
  unfold require
  split
  · rename_i live
    simp [live]
  · rename_i dead
    simp [dead]

theorem get_eq_ok_iff {code : Code} {handle : Handle} {instr : Instr Handle} :
    code.get handle = .ok instr ↔ code.get? handle = some instr := by
  unfold get
  cases code.get? handle with
  | none => simp
  | some held => simp

theorem handleAt_eq_ok_iff {code : Code} {position : Nat} {handle : Handle} :
    code.handleAt position = .ok handle ↔ code.handleAt? position = some handle := by
  unfold handleAt
  cases code.handleAt? position with
  | none => simp
  | some held => simp

theorem position_eq_ok_iff {code : Code} {handle : Handle} {position : Nat} :
    code.position handle = .ok position ↔ code.position? handle = some position := by
  unfold Code.position
  cases code.position? handle with
  | none => simp
  | some found => simp

/-- The check of an instruction passes exactly if its operand fits its opcode and it refers
to live instructions only. -/
theorem check_eq_ok_iff {code : Code} {instr : Instr Handle} :
    code.check instr = .ok () ↔
      instr.HasShape ∧ ∀ ref ∈ instr.refs, code.contains ref = true := by
  unfold check
  rw [bind_eq_ok_iff]
  constructor
  · rintro ⟨⟨⟩, fits, found⟩
    refine ⟨Instr.checkShape_eq_ok_iff.mp fits, ?_⟩
    split at found
    · exact absurd found throw_ne_ok
    · rename_i none
      intro ref member
      simpa using List.find?_eq_none.mp none ref member
  · rintro ⟨fits, live⟩
    refine ⟨(), Instr.checkShape_eq_ok_iff.mpr fits, ?_⟩
    have none : instr.refs.find? (fun ref => !code.contains ref) = none := by
      apply List.find?_eq_none.mpr
      intro ref member
      simp [live ref member]
    rw [none]
    rfl

/-! ## Insertion -/

/-- What an insertion of an instruction between lines did. -/
structure Inserted
    (code : Code) (before after : List Line) (instr : Instr Handle) (handle : Handle)
    (result : Code) : Prop where
  cut : code.lines = before ++ after
  accepted : code.check instr = .ok ()
  handle_eq : handle = code.nextHandle
  lines : result.lines = before ++ ⟨handle, instr⟩ :: after
  linked : result.WellLinked
  tag : result.tag = code.tag
  issued : result.issued = code.issued + 1

variable {code result : Code} {instr : Instr Handle} {handle anchor : Handle}

private theorem inserted_of_insert
    {before after : List Line}
    (linked : code.WellLinked)
    (cut : code.lines = before ++ after)
    (done : code.insert (after.head?.map Line.handle) instr = .ok (handle, result)) :
    Inserted code before after instr handle result := by
  obtain ⟨⟨⟩, accepted, placed⟩ := bind_eq_ok_iff.mp done
  obtain ⟨rfl, rfl⟩ := Prod.mk.inj (pure_eq_ok_iff.mp placed)
  exact ⟨cut, accepted, rfl, linked.lines_link instr cut, linked.link instr cut, rfl,
    issued_link ..⟩

theorem inserted_of_append
    (linked : code.WellLinked)
    (done : code.append instr = .ok (handle, result)) :
    Inserted code code.lines [] instr handle result :=
  inserted_of_insert linked (List.append_nil _).symm done

theorem inserted_of_insertBefore
    (linked : code.WellLinked)
    (done : code.insertBefore anchor instr = .ok (handle, result)) :
    ∃ before line after,
      line.handle = anchor ∧ Inserted code before (line :: after) instr handle result := by
  obtain ⟨⟨⟩, live, placed⟩ := bind_eq_ok_iff.mp done
  obtain ⟨before, line, after, cut, rfl⟩ :=
    linked.exists_cut (require_eq_ok_iff.mp live)
  exact ⟨before, line, after, rfl, inserted_of_insert linked cut placed⟩

theorem inserted_of_insertAfter
    (linked : code.WellLinked)
    (done : code.insertAfter anchor instr = .ok (handle, result)) :
    ∃ before line after,
      line.handle = anchor ∧ Inserted code (before ++ [line]) after instr handle result := by
  obtain ⟨⟨⟩, live, placed⟩ := bind_eq_ok_iff.mp done
  obtain ⟨before, line, after, cut, rfl⟩ :=
    linked.exists_cut (require_eq_ok_iff.mp live)
  rw [linked.next?_eq cut] at placed
  refine ⟨before, line, after, rfl, inserted_of_insert linked ?_ placed⟩
  simpa using cut

/-! ## Replacement of an operand -/

/-- What replacing an operand did: one line has the new operand. -/
theorem lines_of_replaceOperand
    {operand old : Operand Handle}
    (linked : code.WellLinked)
    (done : code.replaceOperand handle operand = .ok (old, result)) :
    ∃ before line after,
      code.lines = before ++ line :: after ∧ line.handle = handle ∧
        old = line.instr.operand ∧
          code.check ⟨line.instr.opcode, operand⟩ = .ok () ∧
            result.lines = before ++ ⟨handle, ⟨line.instr.opcode, operand⟩⟩ :: after ∧
              result.WellLinked ∧ result.tag = code.tag ∧ result.issued = code.issued := by
  obtain ⟨instr, found, rest⟩ := bind_eq_ok_iff.mp done
  obtain ⟨⟨⟩, accepted, replaced⟩ := bind_eq_ok_iff.mp rest
  obtain ⟨rfl, rfl⟩ := Prod.mk.inj (pure_eq_ok_iff.mp replaced)
  have member := linked.get?_eq_some_iff.mp (get_eq_ok_iff.mp found)
  obtain ⟨before, after, cut⟩ := List.append_of_mem member
  refine ⟨before, ⟨handle, instr⟩, after, cut, rfl, rfl, accepted, ?_,
    linked.modify .., tag_modify .., issued_modify ..⟩
  exact linked.lines_modify_of_cut _ cut

/-! ## Retargeting -/

theorem lines_redirectIn (source destination : Handle) :
    ∀ (branches : List Handle) {code : Code},
      code.WellLinked →
        (redirectIn source destination branches code).2.WellLinked ∧
          (redirectIn source destination branches code).2.lines =
            code.lines.map fun line =>
              if line.handle ∈ branches then
                line.mapInstr (Instr.redirect [source] destination)
              else line
  | [], code, linked => by
      refine ⟨linked, ?_⟩
      simp [redirectIn]
  | branch :: branches, code, linked => by
      obtain ⟨restLinked, restLines⟩ :=
        lines_redirectIn source destination branches
          (linked.modify branch (Instr.redirect [source] destination))
      refine ⟨restLinked, ?_⟩
      rw [redirectIn, restLines, linked.lines_modify, List.map_map]
      apply List.map_congr_left
      intro line _
      simp only [Function.comp_apply, List.mem_cons]
      by_cases here : line.handle = branch
      · rw [if_pos here, if_pos (Or.inl here)]
        -- the line may be listed again, and redirecting again changes nothing
        by_cases again : (line.mapInstr (Instr.redirect [source] destination)).handle ∈ branches
        · rw [if_pos again]
          simp only [Line.mapInstr, Instr.redirect_redirect]
        · rw [if_neg again]
      · rw [if_neg here]
        by_cases later : line.handle ∈ branches
        · rw [if_pos later, if_pos (Or.inr later)]
        · rw [if_neg later, if_neg (by tauto)]

theorem tag_redirectIn (source destination : Handle) :
    ∀ (branches : List Handle) (code : Code),
      (redirectIn source destination branches code).2.tag = code.tag
  | [], _ => rfl
  | _ :: branches, _ => by
      rw [redirectIn, tag_redirectIn source destination branches, tag_modify]

theorem issued_redirectIn (source destination : Handle) :
    ∀ (branches : List Handle) (code : Code),
      (redirectIn source destination branches code).2.issued = code.issued
  | [], _ => rfl
  | _ :: branches, _ => by
      rw [redirectIn, issued_redirectIn source destination branches, issued_modify]

/-- What retargeting the listed instructions did: their references to the source are ones to
the destination, which is live. -/
structure Retargeted
    (code : Code) (branches : List Handle) (source destination : Handle) (result : Code) :
    Prop where
  live : code.contains destination = true
  lines :
    result.lines = code.lines.map fun line =>
      if line.handle ∈ branches then line.mapInstr (Instr.redirect [source] destination)
      else line
  linked : result.WellLinked
  tag : result.tag = code.tag
  issued : result.issued = code.issued

/-- Handles pass together exactly if each of them is live. -/
theorem requireAll_eq_ok_iff {handles : List Handle} :
    code.requireAll handles = .ok () ↔ ∀ handle ∈ handles, code.contains handle = true := by
  induction handles with
  | nil => simp [requireAll]
  | cons handle handles inductionHypothesis =>
      rw [requireAll, bind_eq_ok_iff, List.forall_mem_cons, ← inductionHypothesis,
        ← require_eq_ok_iff]
      constructor
      · intro passed
        obtain ⟨⟨⟩, live, others⟩ := passed
        exact ⟨live, others⟩
      · intro passed
        exact ⟨(), passed.1, passed.2⟩

/-- Listed instructions that are live can be retargeted to a live one. -/
theorem retargetFrom_eq_ok
    {branches : List Handle} {destination : Handle}
    (source : Handle) (live : code.contains destination = true)
    (branchesLive : ∀ branch ∈ branches, code.contains branch = true) :
    code.retargetFrom branches source destination =
      (.ok (redirectIn source destination branches code).1,
        (redirectIn source destination branches code).2) := by
  have passed : code.requireAll (destination :: branches) = .ok () :=
    requireAll_eq_ok_iff.mpr (List.forall_mem_cons.mpr ⟨live, branchesLive⟩)
  rw [retargetFrom, passed]

/-- What is retargeted is live, and so is what it is retargeted to. -/
theorem live_of_retargetFrom
    {branches : List Handle} {source destination : Handle} {count : Nat}
    (done : code.retargetFrom branches source destination = (.ok count, result)) :
    code.contains destination = true ∧ ∀ branch ∈ branches, code.contains branch = true := by
  unfold retargetFrom at done
  split at done
  · cases done
  · rename_i passed
    exact List.forall_mem_cons.mp (requireAll_eq_ok_iff.mp passed)

theorem retargeted_of_retargetFrom
    {branches : List Handle} {source destination : Handle} {count : Nat}
    (linked : code.WellLinked)
    (done : code.retargetFrom branches source destination = (.ok count, result)) :
    Retargeted code branches source destination result := by
  obtain ⟨live, branchesLive⟩ := live_of_retargetFrom done
  rw [retargetFrom_eq_ok source live branchesLive] at done
  obtain ⟨-, rfl⟩ := Prod.mk.inj done
  obtain ⟨resultLinked, resultLines⟩ := lines_redirectIn source destination branches linked
  exact ⟨live, resultLines, resultLinked, tag_redirectIn .., issued_redirectIn ..⟩

/-- A retargeting that is refused has changed nothing: the handles are all checked before the
first instruction is. -/
theorem eq_of_retargetFrom_eq_error
    {branches : List Handle} {source destination : Handle} {rejection : Rejection}
    (refused : code.retargetFrom branches source destination = (.error rejection, result)) :
    result = code := by
  unfold retargetFrom at refused
  split at refused
  · exact (Prod.mk.inj refused).2.symm
  · cases refused

end Code

end BytecodePatch
