import BytecodePatch.Proofs.Body.Listing
import BytecodePatch.Proofs.Patch.Blocks
import Mathlib.Logic.Equiv.Basic

/-!
# Insertions at different places

Two instructions that go in at different places have old ones between them, whichever of the
two goes in first. The order makes a difference only to which of them gets which of the two
new handles, and an image shows no handles. So exchanging the handles takes one result to the
other, and both have the same image.
-/

namespace BytecodePatch

/-! ## Images under other handles -/

section Renaming

variable {code other : Code} {move : Handle → Handle} {handle : Handle}

/-- Code under other handles has the same instruction at each position. -/
theorem Code.Renamed.positionOf_eq
    (renamed : code.Renamed other move) (linked : code.WellLinked)
    (otherLinked : other.WellLinked) (live : handle ∈ code.handles) :
    other.positionOf (move handle) = code.positionOf handle := by
  obtain ⟨position, found⟩ := List.mem_iff_getElem?.mp live
  have placed : code.position? handle = some position :=
    linked.position?_eq_some_iff.mpr found
  have otherPlaced : other.position? (move handle) = some position := by
    apply otherLinked.position?_eq_some_iff.mpr
    rw [Code.handleAt?, renamed.handles, List.getElem?_map, found, Option.map_some]
  rw [Code.positionOf, Code.positionOf, placed, otherPlaced]

/-- Code under other handles has the same image. -/
theorem Body.image_of_renamed
    (renamed : code.Renamed other move) (sound : code.Sound) (otherLinked : other.WellLinked)
    (args locals : List ValueType) :
    (⟨args, locals, other⟩ : Body).image = (⟨args, locals, code⟩ : Body).image := by
  have instrs :
      (other.lines.map fun line => line.instr.map other.positionOf) =
        code.lines.map fun line => line.instr.map code.positionOf := by
    rw [renamed.lines, List.map_map]
    apply List.map_congr_left
    intro line member
    rw [Function.comp_apply, Line.rename, Instr.map_map]
    apply Instr.map_congr
    intro ref refMember
    exact renamed.positionOf_eq sound.linked otherLinked (sound.live line member ref refMember)
  rw [image, image, instrs]

/-- Lines that have no handle but such as keep their names are as they were. -/
theorem Code.Sound.map_rename_eq_self
    {lines : List Line}
    (sound : code.Sound) (fixed : ∀ handle ∈ code.handles, move handle = handle)
    (known : lines ⊆ code.lines) :
    lines.map (Line.rename move) = lines := by
  refine (List.map_congr_left ?_).trans (List.map_id lines)
  intro line member
  have own : move line.handle = line.handle := fixed _ (List.mem_map_of_mem (known member))
  have instr : line.instr.map move = line.instr :=
    Instr.map_eq_self fun ref refMember => fixed ref (sound.live line (known member) ref refMember)
  rw [Line.rename, own, instr, id_eq]

end Renaming

/-! ## Two places -/

namespace Code

variable {code result otherResult : Code} {before middle after : List Line}
  {instr otherInstr : Instr Handle} {handle otherHandle : Handle}
  {anchor otherAnchor : Option Handle}

/-- Lines stand between a first place and a second one. -/
structure Between
    (code : Code) (before middle after : List Line) (anchor otherAnchor : Option Handle) :
    Prop where
  cut : code.lines = before ++ (middle ++ after)
  apart : middle ≠ []
  front : (middle ++ after).head?.map Line.handle = anchor
  back : after.head?.map Line.handle = otherAnchor

/-- There are lines between different places, one of which comes first. -/
theorem WellLinked.exists_between
    (linked : code.WellLinked)
    (live : ∀ handle ∈ anchor, code.contains handle = true)
    (otherLive : ∀ handle ∈ otherAnchor, code.contains handle = true)
    (different : anchor ≠ otherAnchor) :
    ∃ before middle after,
      Between code before middle after anchor otherAnchor ∨
        Between code before middle after otherAnchor anchor := by
  obtain ⟨before, after, cut, place⟩ := linked.exists_cut_at live
  obtain ⟨otherBefore, otherAfter, otherCut, otherPlace⟩ := linked.exists_cut_at otherLive
  rcases List.append_eq_append_iff.mp (cut.symm.trans otherCut) with
    ⟨middle, rfl, rfl⟩ | ⟨middle, rfl, rfl⟩
  · refine ⟨before, middle, otherAfter, Or.inl ⟨cut, ?_, place, otherPlace⟩⟩
    rintro rfl
    exact different (place.symm.trans otherPlace)
  · refine ⟨otherBefore, middle, after, Or.inr ⟨otherCut, ?_, otherPlace, place⟩⟩
    rintro rfl
    exact different (place.symm.trans otherPlace)

/-! ## Two insertions -/

/-- Inserts two instructions, one after the other, each before a live instruction or at the
end. -/
def insertBothAt
    (code : Code) (anchor : Option Handle) (instr : Instr Handle)
    (otherAnchor : Option Handle) (otherInstr : Instr Handle) :
    Except Rejection Code := do
  let (_, between) ← code.insertAt anchor instr
  let (_, result) ← between.insertAt otherAnchor otherInstr
  return result

/-- The handle of the instruction after the one that goes in next. -/
def secondHandle (code : Code) : Handle :=
  code.handleOf (code.issued + 1)

/-- Two new lines stand before and behind old ones. -/
structure InsertedBoth
    (before middle after : List Line) (instr otherInstr : Instr Handle)
    (handle otherHandle : Handle) (result : Code) : Prop where
  lines :
    result.lines =
      before ++ ⟨handle, instr⟩ :: (middle ++ ⟨otherHandle, otherInstr⟩ :: after)
  sound : result.Sound

theorem Inserted.nextHandle_eq
    (inserted : Inserted code before after instr handle result) :
    result.nextHandle = code.secondHandle := by
  rw [nextHandle, secondHandle, handleOf, handleOf, inserted.tag, inserted.issued]

/-- The instruction at the first place goes in, and then the one at the second. -/
theorem Sound.exists_front_insertedBoth
    (sound : code.Sound) (between : Between code before middle after anchor otherAnchor)
    (accepted : code.check instr = .ok ()) (otherAccepted : code.check otherInstr = .ok ()) :
    ∃ result,
      code.insertBothAt anchor instr otherAnchor otherInstr = .ok result ∧
        InsertedBoth before middle after instr otherInstr code.nextHandle code.secondHandle
          result := by
  obtain ⟨grown, placed, first⟩ := exists_inserted_of_cut sound.linked between.cut accepted
  rw [between.front] at placed
  have grownCut :
      grown.lines = (before ++ ⟨code.nextHandle, instr⟩ :: middle) ++ after := by
    rw [first.lines, List.append_assoc, List.cons_append]
  have stillAccepted := (Extends.of_inserted sound.linked first).check otherAccepted
  obtain ⟨result, otherPlaced, second⟩ :=
    exists_inserted_of_cut first.linked grownCut stillAccepted
  rw [between.back, first.nextHandle_eq] at otherPlaced
  refine ⟨result, bind_eq_ok_iff.mpr ⟨_, placed, bind_eq_ok_iff.mpr ⟨_, otherPlaced, rfl⟩⟩,
    ?_, (sound.of_inserted first).of_inserted second⟩
  rw [second.lines, first.nextHandle_eq, List.append_assoc, List.cons_append]

/-- The instruction at the second place goes in, and then the one at the first. -/
theorem Sound.exists_back_insertedBoth
    (sound : code.Sound) (between : Between code before middle after anchor otherAnchor)
    (accepted : code.check instr = .ok ()) (otherAccepted : code.check otherInstr = .ok ()) :
    ∃ result,
      code.insertBothAt otherAnchor otherInstr anchor instr = .ok result ∧
        InsertedBoth before middle after instr otherInstr code.secondHandle code.nextHandle
          result := by
  have backCut : code.lines = (before ++ middle) ++ after := by
    rw [between.cut, List.append_assoc]
  obtain ⟨grown, otherPlaced, first⟩ :=
    exists_inserted_of_cut sound.linked backCut otherAccepted
  rw [between.back] at otherPlaced
  have grownCut :
      grown.lines = before ++ (middle ++ ⟨code.nextHandle, otherInstr⟩ :: after) := by
    rw [first.lines, List.append_assoc]
  -- what went in at the second place is not what stands at the first
  have sameFront :
      (middle ++ ⟨code.nextHandle, otherInstr⟩ :: after).head?.map Line.handle = anchor := by
    rw [← between.front]
    obtain ⟨line, lines, rfl⟩ := List.exists_cons_of_ne_nil between.apart
    rfl
  have stillAccepted := (Extends.of_inserted sound.linked first).check accepted
  obtain ⟨result, placed, second⟩ :=
    exists_inserted_of_cut first.linked grownCut stillAccepted
  rw [sameFront, first.nextHandle_eq] at placed
  refine ⟨result, bind_eq_ok_iff.mpr ⟨_, otherPlaced, bind_eq_ok_iff.mpr ⟨_, placed, rfl⟩⟩,
    ?_, (sound.of_inserted first).of_inserted second⟩
  rw [second.lines, first.nextHandle_eq]

namespace InsertedBoth

variable (inserted :
  InsertedBoth before middle after instr otherInstr handle otherHandle result)
include inserted

/-- Neither of the new handles was in use. -/
theorem not_mem_handles (cut : code.lines = before ++ (middle ++ after)) :
    handle ∉ code.handles ∧ otherHandle ∉ code.handles := by
  have distinct := inserted.sound.linked.nodup_handles
  rw [handles, inserted.lines] at distinct
  simp only [List.map_append, List.map_cons] at distinct
  have first := List.nodup_cons.mp (List.nodup_middle.mp distinct)
  have second := first.2
  rw [← List.append_assoc] at second
  have others := List.nodup_cons.mp (List.nodup_middle.mp second)
  rw [handles, cut]
  simp only [List.map_append, List.append_assoc, List.mem_append, List.mem_cons] at first others ⊢
  tauto

/-- What stood there before stands there still. -/
theorem get?_eq_some
    {old : Handle} {held : Instr Handle}
    (linked : code.WellLinked) (cut : code.lines = before ++ (middle ++ after))
    (found : code.get? old = some held) :
    result.get? old = some held := by
  have member := linked.get?_eq_some_iff.mp found
  apply inserted.sound.linked.get?_eq_some_iff.mpr
  rw [cut] at member
  rw [inserted.lines]
  simp only [List.mem_append, List.mem_cons] at member ⊢
  tauto

/-- Exchanging the new handles takes one result to the other. -/
theorem renamed
    (otherInserted :
      InsertedBoth before middle after instr otherInstr otherHandle handle otherResult)
    (sound : code.Sound) (cut : code.lines = before ++ (middle ++ after))
    (accepted : code.check instr = .ok ()) (otherAccepted : code.check otherInstr = .ok ()) :
    result.Renamed otherResult (Equiv.swap handle otherHandle) := by
  obtain ⟨fresh, otherFresh⟩ := inserted.not_mem_handles cut
  have fixed : ∀ old ∈ code.handles, Equiv.swap handle otherHandle old = old := by
    intro old member
    apply Equiv.swap_apply_of_ne_of_ne
    · exact fun same => fresh (same ▸ member)
    · exact fun same => otherFresh (same ▸ member)
  have fixedNew :
      ∀ held : Instr Handle, code.check held = .ok () →
        held.map (Equiv.swap handle otherHandle) = held := by
    intro held passes
    have live := (check_eq_ok_iff.mp passes).2
    apply Instr.map_eq_self
    intro ref member
    exact fixed ref (sound.linked.contains_iff.mp (live ref member))
  constructor
  · rw [otherInserted.lines, inserted.lines]
    have newLine :
        Line.rename (Equiv.swap handle otherHandle) ⟨handle, instr⟩ = ⟨otherHandle, instr⟩ := by
      rw [Line.rename, Equiv.swap_apply_left, fixedNew _ accepted]
    have otherNewLine :
        Line.rename (Equiv.swap handle otherHandle) ⟨otherHandle, otherInstr⟩ =
          ⟨handle, otherInstr⟩ := by
      rw [Line.rename, Equiv.swap_apply_right, fixedNew _ otherAccepted]
    have fixedLines :
        ∀ lines, lines ⊆ code.lines →
          lines.map (Line.rename (Equiv.swap handle otherHandle)) = lines :=
      fun _ known => sound.map_rename_eq_self fixed known
    simp only [List.map_append, List.map_cons, newLine, otherNewLine]
    rw [fixedLines before (by simp [cut]), fixedLines middle (by simp [cut]),
      fixedLines after (by simp [cut])]
  · exact fun first _ second _ same => (Equiv.swap handle otherHandle).injective same

end InsertedBoth

/-! ## The order of insertions -/

/-- Two results of edits have the same image, and in both everything is as it was that was
there before. -/
structure Interchangeable (code result otherResult : Code) : Prop where
  flatten :
    ∀ args locals, ∃ image,
      Body.flatten ⟨args, locals, result⟩ = .ok image ∧
        Body.flatten ⟨args, locals, otherResult⟩ = .ok image
  kept :
    ∀ handle instr, code.get? handle = some instr →
      result.get? handle = some instr ∧ otherResult.get? handle = some instr

theorem Interchangeable.symm (same : Interchangeable code result otherResult) :
    Interchangeable code otherResult result where
  flatten := by
    intro args locals
    obtain ⟨image, flattened, otherFlattened⟩ := same.flatten args locals
    exact ⟨image, otherFlattened, flattened⟩
  kept := fun handle instr found => (same.kept handle instr found).symm

private theorem Sound.exists_interchangeable_of_between
    (sound : code.Sound) (between : Between code before middle after anchor otherAnchor)
    (accepted : code.check instr = .ok ()) (otherAccepted : code.check otherInstr = .ok ()) :
    ∃ result otherResult,
      code.insertBothAt anchor instr otherAnchor otherInstr = .ok result ∧
        code.insertBothAt otherAnchor otherInstr anchor instr = .ok otherResult ∧
          Interchangeable code result otherResult := by
  obtain ⟨result, done, inserted⟩ :=
    sound.exists_front_insertedBoth between accepted otherAccepted
  obtain ⟨otherResult, otherDone, otherInserted⟩ :=
    sound.exists_back_insertedBoth between accepted otherAccepted
  have renamed := inserted.renamed otherInserted sound between.cut accepted otherAccepted
  refine ⟨result, otherResult, done, otherDone, ?_, ?_⟩
  · intro args locals
    have flattened : Body.flatten ⟨args, locals, result⟩ = .ok _ :=
      Body.flatten_of_sound inserted.sound
    have otherFlattened : Body.flatten ⟨args, locals, otherResult⟩ = .ok _ :=
      Body.flatten_of_sound otherInserted.sound
    rw [Body.image_of_renamed renamed inserted.sound otherInserted.sound.linked] at otherFlattened
    exact ⟨_, flattened, otherFlattened⟩
  · intro handle held found
    exact ⟨inserted.get?_eq_some sound.linked between.cut found,
      otherInserted.get?_eq_some sound.linked between.cut found⟩

/-- It makes no difference to the image which of two instructions goes in first, as long as
their places are different. -/
theorem Sound.exists_interchangeable
    (sound : code.Sound)
    (live : ∀ handle ∈ anchor, code.contains handle = true)
    (otherLive : ∀ handle ∈ otherAnchor, code.contains handle = true)
    (different : anchor ≠ otherAnchor)
    (accepted : code.check instr = .ok ()) (otherAccepted : code.check otherInstr = .ok ()) :
    ∃ result otherResult,
      code.insertBothAt anchor instr otherAnchor otherInstr = .ok result ∧
        code.insertBothAt otherAnchor otherInstr anchor instr = .ok otherResult ∧
          Interchangeable code result otherResult := by
  obtain ⟨before, middle, after, inOrder | reversed⟩ :=
    sound.linked.exists_between live otherLive different
  · exact sound.exists_interchangeable_of_between inOrder accepted otherAccepted
  · obtain ⟨otherResult, result, otherDone, done, same⟩ :=
      sound.exists_interchangeable_of_between reversed otherAccepted accepted
    exact ⟨result, otherResult, done, otherDone, same.symm⟩

end Code

end BytecodePatch
