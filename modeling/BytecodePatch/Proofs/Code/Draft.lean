import BytecodePatch.Code.Draft
import BytecodePatch.Proofs.Code.Sound

/-!
# Code made of a list of instructions

Drafts and images become code by linking instructions in at the end without any check. The
slots are then the positions, so that references can be fixed before the instructions exist.
What is not checked on the way is checked before and after: the shapes of the instructions
and the whole code.
-/

namespace BytecodePatch

namespace Code

/-- Linking instructions in at the end adds their lines under the slots that come next. -/
private theorem foldl_link :
    ∀ (instrs : List (Instr Handle)) {code : Code},
      code.WellLinked →
        (instrs.foldl (fun code instr => code.link instr none) code).WellLinked ∧
          (instrs.foldl (fun code instr => code.link instr none) code).tag = code.tag ∧
            (instrs.foldl (fun code instr => code.link instr none) code).lines =
              code.lines ++
                (instrs.zipIdx code.issued).map fun (instr, slot) =>
                  ⟨code.handleOf slot, instr⟩
  | [], code, linked => by
      refine ⟨linked, rfl, ?_⟩
      simp
  | instr :: instrs, code, linked => by
      have cut : code.lines = code.lines ++ [] := (List.append_nil _).symm
      obtain ⟨restLinked, restTag, restLines⟩ := foldl_link instrs (linked.link instr cut)
      refine ⟨restLinked, restTag, ?_⟩
      have linkLines := linked.lines_link instr cut
      have linkIssued := issued_link code instr none
      simp only [List.head?_nil, Option.map_none] at restLines linkLines
      rw [List.foldl_cons, restLines, linkLines, linkIssued, List.zipIdx_cons, List.map_cons,
        List.append_assoc]
      rfl

end Code

namespace Draft

variable (tag : Nat) (instrs : List (Instr Handle))

theorem wellLinked_codeOf : (codeOf tag instrs).WellLinked :=
  (Code.foldl_link instrs (Code.wellLinked_empty tag)).1

theorem tag_codeOf : (codeOf tag instrs).tag = tag :=
  (Code.foldl_link instrs (Code.wellLinked_empty tag)).2.1

theorem lines_codeOf :
    (codeOf tag instrs).lines = instrs.zipIdx.map fun (instr, slot) => ⟨⟨tag, slot⟩, instr⟩ :=
  (Code.foldl_link instrs (Code.wellLinked_empty tag)).2.2

@[simp]
theorem map_instr_lines_codeOf : (codeOf tag instrs).lines.map Line.instr = instrs := by
  rw [lines_codeOf, List.map_map]
  exact List.zipIdx_map_fst 0 instrs

/-- The handle at a position bears the position as its slot. -/
theorem handleAt?_codeOf_eq_some_iff {position : Nat} {handle : Handle} :
    (codeOf tag instrs).handleAt? position = some handle ↔
      position < instrs.length ∧ handle = ⟨tag, position⟩ := by
  rw [Code.handleAt?, Code.handles, lines_codeOf, List.map_map, List.getElem?_eq_some_iff]
  simp only [List.length_map, List.length_zipIdx, List.getElem_map, List.getElem_zipIdx,
    Function.comp_apply, Nat.zero_add, exists_prop, eq_comm]

/-- A handle is live in such code exactly if it bears its identity and the slot is a
position. -/
theorem contains_codeOf_iff {handle : Handle} :
    (codeOf tag instrs).contains handle = true ↔
      handle.code = tag ∧ handle.slot < instrs.length := by
  rw [(wellLinked_codeOf tag instrs).contains_iff, List.mem_iff_getElem?]
  constructor
  · rintro ⟨position, found⟩
    obtain ⟨bound, rfl⟩ := (handleAt?_codeOf_eq_some_iff tag instrs).mp found
    exact ⟨rfl, bound⟩
  · rintro ⟨rfl, bound⟩
    exact ⟨handle.slot, (handleAt?_codeOf_eq_some_iff _ instrs).mpr ⟨bound, rfl⟩⟩

variable {tag instrs}

/-- Code made of instructions is sound if they have their shapes and it passes the
verification. -/
theorem sound_codeOf
    (shapes : ∀ instr ∈ instrs, instr.HasShape)
    (verified : (codeOf tag instrs).verify = .ok ()) :
    (codeOf tag instrs).Sound where
  linked := wellLinked_codeOf tag instrs
  shape := by
    intro line member
    apply shapes
    rw [← map_instr_lines_codeOf tag instrs]
    exact List.mem_map_of_mem member
  live := by
    intro line member ref refMember
    have live := Code.verify_eq_ok_iff.mp verified line member ref refMember
    exact (wellLinked_codeOf tag instrs).contains_iff.mp live

private theorem hasShape_of_checked
    {candidate instr : Instr Handle}
    (checked :
      (do candidate.checkShape; pure candidate : Except Rejection (Instr Handle)) = .ok instr) :
    instr.HasShape := by
  obtain ⟨⟨⟩, fits, answered⟩ := bind_eq_ok_iff.mp checked
  obtain rfl := pure_eq_ok_iff.mp answered
  exact Instr.checkShape_eq_ok_iff.mp fits

private theorem hasShape_of_instrOf
    {draft : Draft} {entry : Entry} {instr : Instr Handle}
    (made : draft.instrOf tag entry = .ok instr) :
    instr.HasShape := by
  unfold instrOf at made
  cases entry with
  | instr candidate => exact hasShape_of_checked made
  | branch opcode label =>
      obtain ⟨handle, _, checked⟩ := bind_eq_ok_iff.mp made
      exact hasShape_of_checked checked
  | switch labels =>
      obtain ⟨handles, _, switched⟩ := bind_eq_ok_iff.mp made
      obtain ⟨candidate, _, checked⟩ := bind_eq_ok_iff.mp switched
      exact hasShape_of_checked checked

/-- Code that is assembled from a draft is sound. -/
theorem sound_of_assemble
    {draft rest : Draft} {code : Code}
    (assembled : draft.assemble tag = (.ok code, rest)) :
    code.Sound := by
  unfold assemble at assembled
  split at assembled
  · cases assembled
  · have made : draft.code tag = .ok code := congrArg Prod.fst assembled
    unfold Draft.code at made
    dsimp only at made
    split at made
    · exact absurd made throw_ne_ok
    · obtain ⟨instrs, resolved, checked⟩ := bind_eq_ok_iff.mp made
      obtain ⟨⟨⟩, verified, answered⟩ := bind_eq_ok_iff.mp checked
      obtain rfl := pure_eq_ok_iff.mp answered
      refine sound_codeOf ?_ verified
      intro instr member
      obtain ⟨entry, _, entryMade⟩ := exists_of_mem_mapM resolved member
      exact hasShape_of_instrOf entryMade

end Draft

end BytecodePatch
