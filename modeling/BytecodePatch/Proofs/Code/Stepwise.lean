import BytecodePatch.Proofs.Code.Editing
import BytecodePatch.Proofs.Code.Ranges

/-!
# Removing a range step by step

A range can be removed at once, with the references into it sent to one instruction that
stays. The same can be done in steps. The references to one instruction of the range after
another are sent there first, and then nothing refers into the range that is removed. Or the
instructions are removed one at a time, each with the repair that was meant for the range, and
references move on from one of them to the next. In whatever order the steps are taken, the
same lines are left.
-/

namespace BytecodePatch

namespace Instr

variable {Ref : Type} [DecidableEq Ref]

/-- One source may be redirected before the others, to the destination or to one of them, from
which its references move on. -/
theorem redirect_then_redirect
    {source middle destination : Ref} {others sources : List Ref}
    (parts : ∀ ref, ref ∈ sources ↔ ref = source ∨ ref ∈ others)
    (onwards : middle ∈ others ∨ middle = destination) (instr : Instr Ref) :
    (instr.redirect [source] middle).redirect others destination =
      instr.redirect sources destination := by
  rw [redirect, redirect, map_map]
  apply map_congr
  intro ref _
  simp only [Function.comp_apply, List.mem_singleton, parts]
  by_cases here : ref = source
  · rw [if_pos here, if_pos (Or.inl here)]
    by_cases inside : middle ∈ others
    · rw [if_pos inside]
    · rw [if_neg inside]
      exact onwards.resolve_left inside
  · rw [if_neg here]
    by_cases inside : ref ∈ others
    · rw [if_pos inside, if_pos (Or.inr inside)]
    · rw [if_neg inside, if_neg (by tauto)]

end Instr

/-- An instruction behind a range stays the destination of a repair, or the repair sends to an
instruction of the range first. -/
theorem Repair.exists_destination_append
    {repair : Repair} {after : List Line} {destination : Handle}
    (wanted : repair.destination? after = some destination) (range : List Line) :
    ∃ middle,
      repair.destination? (range ++ after) = some middle ∧
        (middle ∈ range.map Line.handle ∨ middle = destination) := by
  cases repair with
  | reject => cases wanted
  | «to» target => exact ⟨destination, wanted, Or.inr rfl⟩
  | following =>
      cases range with
      | nil => exact ⟨destination, wanted, Or.inr rfl⟩
      | cons line range => exact ⟨line.handle, rfl, Or.inl List.mem_cons_self⟩

/-- Changing instructions does not change where a repair sends references. -/
theorem Repair.destination?_map
    (repair : Repair) (change : Instr Handle → Instr Handle) (after : List Line) :
    repair.destination? (after.map (Line.mapInstr change)) = repair.destination? after := by
  cases repair with
  | reject => rfl
  | «to» target => rfl
  | following => cases after <;> rfl

namespace Code

/-- Makes all references to some instructions ones to another, one instruction after
another. -/
def retargetEach (destination : Handle) : List Handle → Code → Except Rejection Unit × Code
  | [], code => (.ok (), code)
  | source :: sources, code =>
      match code.retarget source destination with
      | (.error rejection, code) => (.error rejection, code)
      | (.ok _, code) => retargetEach destination sources code

/-- Removes instructions one at a time, each with the same repair. -/
def removeEach (repair : Repair) : List Handle → Code → Except Rejection Unit × Code
  | [], code => (.ok (), code)
  | handle :: handles, code =>
      match code.remove handle repair with
      | (.error rejection, code) => (.error rejection, code)
      | (.ok _, code) => removeEach repair handles code

/-- Removes a range without a repair, after the references to its instructions were sent
elsewhere. -/
def removeFreed
    (code : Code) (destination : Handle) (range : List Handle) (first : Handle) (count : Nat) :
    Except Rejection (List (Instr Handle)) × Code :=
  match code.retargetEach destination range with
  | (.error rejection, code) => (.error rejection, code)
  | (.ok (), freed) => freed.removeRange first count .reject

/-- An edit is carried out and leaves code with these lines. -/
def Leaves {α : Type} (outcome : Except Rejection α × Code) (lines : List Line) : Prop :=
  ∃ (answer : α) (result : Code),
    outcome = (.ok answer, result) ∧ result.WellLinked ∧ result.lines = lines

/-- The lines around a range, with their references into it sent to one instruction. -/
def sentLines (before range after : List Line) (destination : Handle) : List Line :=
  (before ++ after).map
    (Line.mapInstr (Instr.redirect (range.map Line.handle) destination))

/-- A range is removed at once, after the references into it were sent away, or one
instruction at a time, with the same effect. -/
structure RemovedAlike
    (code : Code) (first : Handle) (count : Nat) (before range after : List Line) :
    Prop where
  sent :
    ∀ target,
      code.contains target = true → target ∉ range.map Line.handle →
        Leaves (code.removeRange first count (.to target))
            (sentLines before range after target) ∧
          ∀ order,
            order.Perm (range.map Line.handle) →
              Leaves (code.removeFreed target order first count)
                  (sentLines before range after target) ∧
                Leaves (code.removeEach (.to target) order)
                  (sentLines before range after target)
  following :
    ∀ line others,
      after = line :: others →
        Leaves (code.removeRange first count .following)
            (sentLines before range after line.handle) ∧
          Leaves (code.removeRange first count (.to line.handle))
            (sentLines before range after line.handle) ∧
          ∀ order,
            order.Perm (range.map Line.handle) →
              Leaves (code.removeEach .following order)
                (sentLines before range after line.handle)

variable {code : Code} {first : Handle} {count : Nat} {before range after : List Line}
  {repair : Repair} {destination : Handle}

theorem sentLines_nil (before after : List Line) (destination : Handle) :
    sentLines before [] after destination = before ++ after := by
  calc
    sentLines before [] after destination = (before ++ after).map id := by
      apply List.map_congr_left
      intro line _
      rw [Line.mapInstr, List.map_nil, Instr.redirect_eq_self fun _ _ => List.not_mem_nil]
      rfl
    _ = before ++ after := List.map_id _

/-! ## At once -/

/-- A repair that sends references to an instruction around the range is no hindrance. -/
theorem mendable_of_destination
    (linked : code.WellLinked) (cut : code.lines = before ++ range ++ after)
    (wanted : repair.destination? after = some destination)
    (stays : destination ∈ (before ++ after).map Line.handle) :
    code.Mendable repair before range after := by
  obtain ⟨line, member, rfl⟩ := List.mem_map.mp stays
  cases repair with
  | reject => cases wanted
  | «to» target =>
      obtain rfl := Option.some.inj wanted
      refine Or.inr (Or.inl ⟨line.handle, rfl, ?_, not_mem_range_of_cut linked cut member⟩)
      rw [linked.contains_iff, handles, cut]
      apply List.mem_map_of_mem
      simp only [List.mem_append] at member ⊢
      tauto
  | following =>
      refine Or.inr (Or.inr ⟨rfl, ?_⟩)
      rintro rfl
      cases wanted

/-- The removal of a range whose references can be mended is carried out. -/
theorem leaves_removeRange
    (linked : code.WellLinked) (spans : code.Spans first count before range after)
    (mendable : code.Mendable repair before range after) :
    Leaves (code.removeRange first count repair)
      ((before ++ after).map (Line.mapInstr (repair.mend range after))) := by
  have exactly := linked.removesExactly first count repair
  by_cases zero : count = 0
  · subst zero
    obtain rfl := List.eq_nil_of_length_eq_zero spans.length
    rw [exactly.nothing (spans.contains_first linked) rfl]
    refine ⟨[], code, rfl, linked, ?_⟩
    rw [map_mend_of_apart fun _ _ _ _ => List.not_mem_nil, spans.cut, List.append_nil]
  · obtain ⟨gone, result, done⟩ :=
      exactly.succeeds.mpr
        ⟨spans.contains_first linked, Or.inr ⟨before, range, after, spans, mendable⟩⟩
    have removal := rangeRemoval_of_spans linked spans zero repair
    rw [done] at removal ⊢
    cases removal with
    | done _ _ lines resultLinked _ => exact ⟨gone, result, rfl, resultLinked, lines⟩

/-- A range goes at once, with the references into it sent to an instruction around it. -/
theorem leaves_removeRange_of_destination
    (linked : code.WellLinked) (spans : code.Spans first count before range after)
    (wanted : repair.destination? after = some destination)
    (stays : destination ∈ (before ++ after).map Line.handle) :
    Leaves (code.removeRange first count repair)
      (sentLines before range after destination) := by
  have mendEq :
      repair.mend range after = Instr.redirect (range.map Line.handle) destination := by
    funext instr
    rw [Repair.mend, wanted]
  have left :=
    leaves_removeRange linked spans
      (mendable_of_destination linked spans.cut wanted stays)
  rw [mendEq] at left
  exact left

/-! ## References first -/

/-- All references to some instructions are sent to a live one. -/
theorem leaves_retargetEach :
    ∀ (sources : List Handle) {code : Code},
      code.WellLinked → code.contains destination = true →
        Leaves (code.retargetEach destination sources)
          (code.lines.map (Line.mapInstr (Instr.redirect sources destination)))
  | [], code, linked, _ => by
      refine ⟨(), code, rfl, linked, ?_⟩
      have nothing := sentLines_nil code.lines [] destination
      rw [sentLines, List.append_nil] at nothing
      exact nothing.symm
  | source :: sources, code, linked, live => by
      obtain ⟨changed, next, done⟩ := linked.exists_retarget source live
      have nextLinked := (retargeted_of_retargetFrom linked done).linked
      have nextLines := linked.changesAsList.retarget _ _ _ _ done
      have nextLive : next.contains destination = true := by
        rw [nextLinked.contains_iff, handles, nextLines, List.map_map, handle_comp_mapInstr]
        exact linked.contains_iff.mp live
      obtain ⟨⟨⟩, result, rest, resultLinked, resultLines⟩ :=
        leaves_retargetEach sources nextLinked nextLive
      refine ⟨(), result, ?_, resultLinked, ?_⟩
      · rw [retargetEach, done]
        exact rest
      · rw [resultLines, nextLines, List.map_map]
        apply List.map_congr_left
        intro line _
        simp only [Function.comp_apply, Line.mapInstr]
        rw [Instr.redirect_then_redirect (fun _ => List.mem_cons) (Or.inr rfl)]

/-- Code whose instructions were changed has its ranges where they were. -/
theorem Spans.map
    {result : Code} (spans : code.Spans first count before range after)
    (change : Instr Handle → Instr Handle)
    (lines : result.lines = code.lines.map (Line.mapInstr change)) :
    result.Spans first count (before.map (Line.mapInstr change))
      (range.map (Line.mapInstr change)) (after.map (Line.mapInstr change)) where
  cut := by
    rw [lines, spans.cut, List.map_append, List.map_append]
  length := by
    rw [List.length_map, spans.length]
  first := by
    rw [← List.map_append, List.head?_map, Option.map_map, handle_comp_mapInstr, spans.first]

/-- Once the references to all its instructions were sent away, the removal of a range needs
no repair. -/
theorem leaves_removeFreed
    {order : List Handle}
    (linked : code.WellLinked) (spans : code.Spans first count before range after)
    (stays : destination ∈ (before ++ after).map Line.handle)
    (live : code.contains destination = true) (perm : order.Perm (range.map Line.handle)) :
    Leaves (code.removeFreed destination order first count)
      (sentLines before range after destination) := by
  let change := Instr.redirect order destination
  obtain ⟨⟨⟩, freed, freeing, freedLinked, freedLines⟩ := leaves_retargetEach order linked live
  have freedSpans := spans.map change freedLines
  have outside : destination ∉ range.map Line.handle := by
    obtain ⟨line, member, rfl⟩ := List.mem_map.mp stays
    exact not_mem_range_of_cut linked spans.cut member
  have apart :
      ∀ line ∈ before.map (Line.mapInstr change) ++ after.map (Line.mapInstr change),
        ∀ ref ∈ line.refs, ref ∉ (range.map (Line.mapInstr change)).map Line.handle := by
    intro line member ref refMember
    rw [List.map_map, handle_comp_mapInstr]
    rw [← List.map_append] at member
    obtain ⟨old, _, rfl⟩ := List.mem_map.mp member
    rcases Instr.mem_refs_redirect refMember with rfl | ⟨_, elsewhere⟩
    · exact outside
    · exact fun inside => elsewhere (perm.mem_iff.mpr inside)
  have mendable :
      freed.Mendable .reject (before.map (Line.mapInstr change))
        (range.map (Line.mapInstr change)) (after.map (Line.mapInstr change)) :=
    Or.inl apart
  have left := leaves_removeRange freedLinked freedSpans mendable
  rw [map_mend_of_apart apart, ← List.map_append] at left
  have sameChange : change = Instr.redirect (range.map Line.handle) destination := by
    funext instr
    simp only [change, Instr.redirect, perm.mem_iff]
  rw [sameChange] at left
  rw [removeFreed, freeing]
  exact left

/-! ## One at a time -/

/-- The removal of one instruction is that of a range of one. -/
theorem leaves_remove
    {handle : Handle} {lines : List Line}
    (linked : code.WellLinked)
    (left : Leaves (code.removeRange handle 1 repair) lines) :
    Leaves (code.remove handle repair) lines := by
  obtain ⟨gone, result, removed, resultLinked, resultLines⟩ := left
  have length := ((linked.removesExactly handle 1 repair).removes gone result removed).1
  obtain ⟨instr, rfl⟩ := List.length_eq_one_iff.mp length
  refine ⟨instr, result, ?_, resultLinked, resultLines⟩
  rw [remove, removed]

/-- An instruction of a range goes alone. What refers to it moves on to a later instruction of
the range, or to the destination. -/
private theorem exists_remove_within
    {left right : List Line} {line : Line}
    (linked : code.WellLinked)
    (cut : code.lines = before ++ (left ++ line :: right) ++ after)
    (wanted : repair.destination? after = some destination)
    (stays : destination ∈ (before ++ after).map Line.handle) :
    ∃ middle gone shorter,
      (middle ∈ (left ++ right).map Line.handle ∨ middle = destination) ∧
        code.remove line.handle repair = (.ok gone, shorter) ∧ shorter.WellLinked ∧
          shorter.lines =
            (before ++ (left ++ right) ++ after).map
              (Line.mapInstr (Instr.redirect [line.handle] middle)) := by
  obtain ⟨middle, sentTo, onwards⟩ := Repair.exists_destination_append wanted right
  have spans : code.Spans line.handle 1 (before ++ left) [line] (right ++ after) :=
    ⟨by simpa using cut, rfl, rfl⟩
  have middleStays :
      middle ∈ ((before ++ left) ++ (right ++ after)).map Line.handle := by
    simp only [List.map_append, List.mem_append] at stays ⊢
    rcases onwards with inRight | rfl <;> tauto
  obtain ⟨gone, shorter, removed, shorterLinked, shorterLines⟩ :=
    leaves_remove linked (leaves_removeRange_of_destination linked spans sentTo middleStays)
  refine ⟨middle, gone, shorter, ?_, removed, shorterLinked, ?_⟩
  · rw [List.map_append]
    exact onwards.imp_left (List.mem_append_right _)
  · rw [shorterLines, sentLines]
    simp only [List.map_singleton, List.append_assoc]

/-- References that moved on to others of a range are sent with what refers to these. -/
private theorem sentLines_within
    {left right : List Line} {line : Line} {middle : Handle}
    (onwards : middle ∈ (left ++ right).map Line.handle ∨ middle = destination) :
    sentLines (before.map (Line.mapInstr (Instr.redirect [line.handle] middle)))
        ((left ++ right).map (Line.mapInstr (Instr.redirect [line.handle] middle)))
        (after.map (Line.mapInstr (Instr.redirect [line.handle] middle))) destination =
      sentLines before (left ++ line :: right) after destination := by
  rw [sentLines, sentLines, ← List.map_append, List.map_map, List.map_map,
    handle_comp_mapInstr]
  apply List.map_congr_left
  intro other _
  simp only [Function.comp_apply, Line.mapInstr]
  rw [Instr.redirect_then_redirect _ onwards]
  intro ref
  simp only [List.map_append, List.map_cons, List.mem_append, List.mem_cons]
  tauto

/-- The instructions of a range go one at a time, in any order. -/
theorem leaves_removeEach :
    ∀ (order : List Handle) {code : Code} {before range after : List Line},
      code.WellLinked → code.lines = before ++ range ++ after →
        order.Perm (range.map Line.handle) →
          repair.destination? after = some destination →
            destination ∈ (before ++ after).map Line.handle →
              Leaves (code.removeEach repair order) (sentLines before range after destination)
  | [], code, before, range, after, linked, cut, perm, _, _ => by
      obtain rfl := List.map_eq_nil_iff.mp perm.nil_eq.symm
      refine ⟨(), code, rfl, linked, ?_⟩
      rw [sentLines_nil, cut, List.append_nil]
  | handle :: order, code, before, range, after, linked, cut, perm, wanted, stays => by
      obtain ⟨line, lineMember, rfl⟩ := List.mem_map.mp (perm.mem_iff.mp List.mem_cons_self)
      obtain ⟨left, right, rfl⟩ := List.append_of_mem lineMember
      obtain ⟨middle, gone, shorter, onwards, removed, shorterLinked, shorterLines⟩ :=
        exists_remove_within linked cut wanted stays
      rw [List.map_append, List.map_append] at shorterLines
      have others : order.Perm ((left ++ right).map Line.handle) := by
        rw [List.map_append, List.map_cons] at perm
        rw [List.map_append]
        exact (perm.trans List.perm_middle).cons_inv
      -- what is left of the range stands between what the first removal left around it
      obtain ⟨⟨⟩, result, rest, resultLinked, resultLines⟩ :=
        leaves_removeEach order shorterLinked shorterLines
          (by rwa [List.map_map, handle_comp_mapInstr])
          (by rwa [Repair.destination?_map])
          (by rwa [← List.map_append, List.map_map, handle_comp_mapInstr])
      refine ⟨(), result, ?_, resultLinked, resultLines.trans (sentLines_within onwards)⟩
      rw [removeEach, removed]
      exact rest

/-! ## All ways -/

theorem WellLinked.removedAlike
    (linked : code.WellLinked) (spans : code.Spans first count before range after) :
    code.RemovedAlike first count before range after where
  sent := by
    intro target live outside
    have stays : target ∈ (before ++ after).map Line.handle := by
      have listed := linked.contains_iff.mp live
      rw [handles, spans.cut] at listed
      simp only [List.map_append, List.mem_append] at listed ⊢
      tauto
    refine ⟨leaves_removeRange_of_destination linked spans rfl stays, ?_⟩
    intro order perm
    exact ⟨leaves_removeFreed linked spans stays live perm,
      leaves_removeEach order linked spans.cut perm rfl stays⟩
  following := by
    rintro line others rfl
    have stays : line.handle ∈ (before ++ line :: others).map Line.handle := by
      simp
    refine ⟨leaves_removeRange_of_destination linked spans rfl stays,
      leaves_removeRange_of_destination linked spans rfl stays, ?_⟩
    intro order perm
    exact leaves_removeEach order linked spans.cut perm rfl stays

end Code

end BytecodePatch
