import BytecodePatch.Proofs.Code.Lines

/-!
# Changes of code as changes of its lines

The changes that all edits are made of, before any check: linking an instruction in, changing
instructions under their names, and taking a range out. Each keeps code well linked and acts
on the lines as on a plain list.
-/

namespace BytecodePatch.Code

@[simp]
theorem issued_link (code : Code) (instr : Instr Handle) (next : Option Handle) :
    (code.link instr next).issued = code.issued + 1 :=
  Chain.issued_link ..

@[simp]
theorem tag_modify (code : Code) (handle : Handle) (change : Instr Handle → Instr Handle) :
    (code.modify handle change).tag = code.tag := by
  unfold modify
  split <;> rfl

@[simp]
theorem issued_modify (code : Code) (handle : Handle) (change : Instr Handle → Instr Handle) :
    (code.modify handle change).issued = code.issued := by
  unfold modify
  split
  · exact Chain.issued_modify ..
  · rfl

@[simp]
theorem issued_mapInstrs (code : Code) (change : Instr Handle → Instr Handle) :
    (code.mapInstrs change).issued = code.issued :=
  Chain.issued_mapValues ..

theorem lines_mapInstrs (code : Code) (change : Instr Handle → Instr Handle) :
    (code.mapInstrs change).lines = code.lines.map (Line.mapInstr change) := by
  rw [lines, Code.mapInstrs, Chain.entries_mapValues, lines, List.map_map, List.map_map]
  rfl

namespace WellLinked

variable {code : Code} {before after : List Line} {line : Line} {handle : Handle}

/-! ## Linking an instruction in -/

theorem link
    (linked : code.WellLinked) (instr : Instr Handle)
    (cut : code.lines = before ++ after) :
    (code.link instr (after.head?.map Line.handle)).WellLinked := by
  obtain ⟨left, right, entriesEq, rfl, rfl⟩ := entries_of_cut cut
  have chainLinked := Chain.WellLinked.link linked instr entriesEq
  unfold WellLinked Code.link
  cases right <;> exact chainLinked

theorem lines_link
    (linked : code.WellLinked) (instr : Instr Handle)
    (cut : code.lines = before ++ after) :
    (code.link instr (after.head?.map Line.handle)).lines =
      before ++ ⟨code.nextHandle, instr⟩ :: after := by
  obtain ⟨left, right, entriesEq, rfl, rfl⟩ := entries_of_cut cut
  have entriesLink := Chain.WellLinked.entries_link linked instr entriesEq
  rw [lines, Code.link]
  cases right with
  | nil =>
      simp only [List.head?_nil, Option.map_none] at entriesLink
      simp [entriesLink, nextHandle, handleOf, issued]
  | cons entry rest =>
      simp only [List.head?_cons, Option.map_some] at entriesLink
      simp [entriesLink, nextHandle, handleOf, issued]

/-! ## Changing instructions -/

theorem modify
    (linked : code.WellLinked) (handle : Handle) (change : Instr Handle → Instr Handle) :
    (code.modify handle change).WellLinked := by
  unfold Code.modify
  split
  · exact Chain.WellLinked.modify linked ..
  · exact linked

theorem lines_modify
    (linked : code.WellLinked) (handle : Handle) (change : Instr Handle → Instr Handle) :
    (code.modify handle change).lines =
      code.lines.map fun line =>
        if line.handle = handle then line.mapInstr change else line := by
  unfold Code.modify
  split
  · rename_i slot named
    obtain rfl := code.slot?_eq_some_iff.mp named
    rw [lines, Chain.WellLinked.entries_modify linked, lines, List.map_map, List.map_map]
    apply List.map_congr_left
    intro entry _
    simp only [Function.comp_apply, handleOf_inj]
    by_cases same : slot = entry.1
    · rw [if_pos same, if_pos same.symm]
      rfl
    · rw [if_neg same, if_neg (Ne.symm same)]
      rfl
  · rename_i unnamed
    have unchanged :
        code.lines.map (fun line =>
          if line.handle = handle then line.mapInstr change else line) =
          code.lines.map id := by
      apply List.map_congr_left
      intro line member
      have other : line.handle ≠ handle := by
        rintro rfl
        rw [slot?_handle member] at unnamed
        simp at unnamed
      rw [if_neg other]
      rfl
    rw [unchanged, List.map_id]

/-- Changing a live instruction changes its line. -/
theorem lines_modify_of_cut
    (linked : code.WellLinked) (change : Instr Handle → Instr Handle)
    (cut : code.lines = before ++ line :: after) :
    (code.modify line.handle change).lines = before ++ line.mapInstr change :: after := by
  have others :
      ∀ part : List Line, (∀ other ∈ part, other ∈ before ++ after) →
        part.map (fun other =>
          if other.handle = line.handle then other.mapInstr change else other) = part := by
    intro part contained
    calc
      part.map (fun other =>
          if other.handle = line.handle then other.mapInstr change else other) =
          part.map id :=
        List.map_congr_left fun other member =>
          if_neg (linked.ne_of_cut cut (contained other member))
      _ = part := List.map_id part
  rw [linked.lines_modify, cut, List.map_append, List.map_cons, if_pos rfl,
    others before fun _ member => List.mem_append_left after member,
    others after fun _ member => List.mem_append_right before member]

theorem mapInstrs (linked : code.WellLinked) (change : Instr Handle → Instr Handle) :
    (code.mapInstrs change).WellLinked :=
  Chain.WellLinked.mapValues linked change

/-! ## Taking a range out -/

/-- Going along a range from its first handle reads the handles of the range and stops at
the handle after it; it fails exactly if the code is over before. -/
theorem range?_eq (linked : code.WellLinked) :
    ∀ (count : Nat) (before rest : List Line),
      code.lines = before ++ rest →
        code.range? count (rest.head?.map Line.handle) =
          if count ≤ rest.length then
            some ((rest.take count).map Line.handle, (rest.drop count).head?.map Line.handle)
          else none
  | 0, _, rest, _ => by
      simp [range?]
  | count + 1, _, [], _ => by
      simp [range?]
  | count + 1, before, line :: rest, cut => by
      have restCut : code.lines = (before ++ [line]) ++ rest := by
        simpa using cut
      have restRange := linked.range?_eq count (before ++ [line]) rest restCut
      simp only [List.head?_cons, Option.map_some, range?, linked.next?_eq cut, restRange]
      by_cases enough : count ≤ rest.length
      · simp [enough]
      · simp [enough]

/-- The instructions on a range of lines can be taken out one after another, and the lines
around them stay. -/
theorem unlinkAll_eq :
    ∀ (range : List Line) {code : Code} {before after : List Line},
      code.WellLinked →
        code.lines = before ++ range ++ after →
          ∃ result,
            unlinkAll (range.map Line.handle) code = (.ok (range.map Line.instr), result) ∧
              result.WellLinked ∧
                result.lines = before ++ after ∧
                  result.tag = code.tag ∧ result.issued = code.issued
  | [], code, before, after, linked, cut => by
      exact ⟨code, rfl, linked, by simpa using cut, rfl, rfl⟩
  | line :: range, code, before, after, linked, cut => by
      have middle : code.lines = before ++ line :: (range ++ after) := by
        simpa using cut
      obtain ⟨left, right, entriesEq, own, rfl, rightEq⟩ := entries_of_middle middle
      obtain ⟨chain, taken, chainLinked, chainEntries⟩ :=
        Chain.WellLinked.exists_unlink linked entriesEq
      let shorter : Code := { code with chain := chain }
      have shorterLinked : shorter.WellLinked := chainLinked
      have shorterLines :
          shorter.lines =
            left.map (fun entry => ⟨code.handleOf entry.1, entry.2⟩) ++ range ++ after := by
        rw [List.append_assoc, rightEq, ← List.map_append, ← chainEntries]
        rfl
      obtain ⟨result, rest, resultLinked, resultLines, resultTag, resultIssued⟩ :=
        unlinkAll_eq range shorterLinked shorterLines
      refine ⟨result, ?_, resultLinked, resultLines, resultTag, ?_⟩
      · simp only [List.map_cons, unlinkAll, taken]
        rw [rest]
        rfl
      · rw [resultIssued]
        exact Chain.issued_unlink taken

end WellLinked

end BytecodePatch.Code
