import BytecodePatch.Proofs.Code.Ranges
import BytecodePatch.Proofs.Patch.Blocks

/-!
# Replacing a range exactly

The replacement of a range puts the new instructions before it and then takes it out, with the
references into it moved to the first new instruction. The removal can only be refused if the
range does not fit. Then the new instructions are taken out again, which always succeeds since
nothing refers to them, and the code reads as before.
-/

namespace BytecodePatch

namespace Code

/-- The second code reads as the first one, though it may have issued more slots. -/
structure Restored (code result : Code) : Prop where
  lines : result.lines = code.lines
  live : ∀ handle, result.contains handle = code.contains handle
  held : ∀ handle, result.get? handle = code.get? handle

variable {code result : Code} {before after block : List Line} {line : Line}

theorem Restored.refl (code : Code) : Restored code code :=
  ⟨rfl, fun _ => rfl, fun _ => rfl⟩

end Code

namespace Edit

open Code

variable {code inserted : Code} {before range after : List Line} {first : Handle}
  {count : Nat} {replacement : List (Instr Handle)} {handles : List Handle}

/-- What can be replaced: something by something that the code accepts. -/
structure Replaceable
    (code : Code) (first : Handle) (count : Nat) (replacement : List (Instr Handle)) :
    Prop where
  filled : replacement ≠ []
  positive : count ≠ 0
  shape : ∀ instr ∈ replacement, instr.HasShape
  live : ∀ instr ∈ replacement, ∀ ref ∈ instr.refs, code.contains ref = true
  fits : ∃ before range after, code.Spans first count before range after

/-- What comes of the replacement of a range: the new instructions stand in its place under
new handles, and what referred into it refers to the first of them, or the code reads as
before. -/
inductive RangeReplacement
    (code : Code) (first : Handle) (count : Nat) (replacement : List (Instr Handle)) :
    Outcome → Prop where
  | done {before range after : List Line} {head : Handle} {tail : List Handle} {result : Code}
      (possible : Replaceable code first count replacement)
      (spans : code.Spans first count before range after)
      (length : (head :: tail).length = replacement.length)
      (new : ∀ handle ∈ head :: tail, code.contains handle = false)
      (lines :
        result.lines =
          (before ++ List.zipWith Line.mk (head :: tail) replacement ++ after).map
            (Line.mapInstr (Instr.redirect (range.map Line.handle) head))) :
      RangeReplacement code first count replacement (.ok (head :: tail), result)
  | refused {error : PatchError} {result : Code}
      (impossible : ¬Replaceable code first count replacement)
      (restored : code.Restored result) :
      RangeReplacement code first count replacement (.error error, result)

/-- Once its checks are passed, a replacement is an insertion and a removal. -/
private theorem replaceRange_of_inserted
    {head : Handle} {tail : List Handle}
    (filled : replacement ≠ []) (positive : count ≠ 0)
    (accepted : checkAll code replacement = .ok ()) (live : code.contains first = true)
    (placed : insertAllBefore first replacement code = .ok (head :: tail, inserted)) :
    replaceRange code first count replacement =
      match inserted.removeRange first count (.to head) with
      | (.ok _, replaced) => (.ok (head :: tail), replaced)
      | (.error rejection, reached) =>
          (.error (.rejected rejection), withdraw reached (head :: tail)) := by
  obtain ⟨instr, found⟩ := Option.isSome_iff_exists.mp live
  have emptyEq : replacement.isEmpty = false := List.isEmpty_eq_false_iff.mpr filled
  have getEq : code.get first = .ok instr := by
    rw [Code.get, found]
  rw [replaceRange, emptyEq, if_neg Bool.false_ne_true, if_neg positive, accepted, getEq,
    placed]
  rfl

/-- A replacement that is refused before anything is inserted. -/
private theorem replaceRange_of_rejected
    (rejection : Rejection)
    (filled : replacement ≠ []) (positive : count ≠ 0)
    (rejected :
      (do
        checkAll code replacement
        discard <| code.get first
        insertAllBefore first replacement code) =
          (.error rejection : Except Rejection (List Handle × Code))) :
    replaceRange code first count replacement = (.error (.rejected rejection), code) := by
  have emptyEq : replacement.isEmpty = false := List.isEmpty_eq_false_iff.mpr filled
  rw [replaceRange, emptyEq, if_neg Bool.false_ne_true, if_neg positive, rejected]

/-- The handles that a block received, of which there is a first one. -/
private theorem exists_head_of_insertedAll
    (filled : replacement ≠ [])
    (block : InsertedAll code before after replacement handles inserted) :
    ∃ head tail, handles = head :: tail := by
  apply List.exists_cons_of_length_pos
  rw [block.length]
  exact List.length_pos_iff.mpr filled

theorem rangeReplacement_of_replaceable
    (linked : code.WellLinked) (possible : Replaceable code first count replacement) :
    RangeReplacement code first count replacement
      (replaceRange code first count replacement) := by
  obtain ⟨before, range, after, spans⟩ := possible.fits
  obtain ⟨line, shorter, rfl⟩ : ∃ line shorter, range = line :: shorter := by
    apply List.exists_cons_of_length_pos
    rw [spans.length]
    exact Nat.pos_of_ne_zero possible.positive
  obtain rfl : line.handle = first := Option.some.inj spans.first
  have cut : code.lines = before ++ line :: (shorter ++ after) := by
    rw [spans.cut, List.append_assoc, List.cons_append]
  have accepted : ∀ instr ∈ replacement, code.check instr = .ok () := fun instr member =>
    check_eq_ok_iff.mpr ⟨possible.shape instr member, possible.live instr member⟩
  obtain ⟨handles, inserted, placed, block⟩ := exists_insertedAll linked cut accepted
  obtain ⟨head, tail, rfl⟩ := exists_head_of_insertedAll possible.filled block
  have insertedSpans :
      inserted.Spans line.handle count
        (before ++ List.zipWith Line.mk (head :: tail) replacement) (line :: shorter)
        after := by
    refine ⟨?_, spans.length, rfl⟩
    rw [block.lines, List.append_assoc _ (line :: shorter), List.cons_append]
  have new : ∀ handle ∈ head :: tail, code.contains handle = false :=
    fun _ member => block.contains_eq_false linked member
  have fit :
      inserted.contains head = true ∧ head ∉ (line :: shorter).map Line.handle := by
    constructor
    · rw [block.linked.contains_iff, handles, block.lines, List.map_append, List.map_append,
        block.map_handle]
      simp
    · intro inRange
      apply block.not_mem_handles List.mem_cons_self
      rw [handles, spans.cut, List.map_append, List.map_append]
      exact List.mem_append_left _ (List.mem_append_right _ inRange)
  have removal :=
    rangeRemoval_of_spans block.linked insertedSpans possible.positive (.to head)
  rw [replaceRange_of_inserted possible.filled possible.positive
    (checkAll_eq_ok_iff.mpr accepted) (spans.contains_first linked) placed]
  generalize inserted.removeRange line.handle count (.to head) = answer at removal
  cases removal with
  | done _ _ lines _ _ => exact .done possible spans block.length new lines
  | invalid _ wanted unfit =>
      cases wanted
      exact absurd fit unfit
  | dangling _ nowhere _ => cases nowhere

/-- One live instruction is a range that fits, so that nothing is inserted unless it can be
replaced. -/
theorem replaceRange_one_of_not_replaceable
    (linked : code.WellLinked) (live : code.contains first = true)
    (impossible : ¬Replaceable code first 1 replacement) :
    ∃ error, replaceRange code first 1 replacement = (.error error, code) := by
  by_cases filled : replacement = []
  · subst filled
    exact ⟨_, rfl⟩
  cases checked : checkAll code replacement with
  | error rejection =>
      exact ⟨_, replaceRange_of_rejected rejection filled Nat.one_ne_zero (by rw [checked]; rfl)⟩
  | ok nothing =>
      have accepted := checkAll_eq_ok_iff.mp checked
      obtain ⟨before, line, after, cut, rfl⟩ := linked.exists_cut live
      apply absurd _ impossible
      refine ⟨filled, Nat.one_ne_zero, fun instr member => ?_, fun instr member => ?_,
        before, [line], after, ?_, rfl, rfl⟩
      · exact (check_eq_ok_iff.mp (accepted instr member)).1
      · exact (check_eq_ok_iff.mp (accepted instr member)).2
      · rw [cut, List.append_assoc, List.singleton_append]

end Edit

end BytecodePatch
