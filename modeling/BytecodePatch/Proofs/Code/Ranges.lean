import BytecodePatch.Proofs.Code.Reading
import BytecodePatch.Proofs.Code.Removal

/-!
# Removing a range exactly

The handle of a first instruction and a count cut the lines into those before a range, the
range and those after it. What comes of the removal of the range is decided by these three
parts and the repair alone: it is carried out if nothing outside refers into the range, or if
what does can be sent to an instruction outside, and refused with one certain error otherwise.
-/

namespace BytecodePatch

/-- Where a repair sends references into a range, if anywhere. -/
def Repair.destination? (after : List Line) : Repair → Option Handle
  | .reject => none
  | .to handle => some handle
  | .following => after.head?.map Line.handle

/-- An instruction with its references into a range sent to where the repair wants them. -/
def Repair.mend
    (repair : Repair) (range after : List Line) (instr : Instr Handle) : Instr Handle :=
  match repair.destination? after with
  | some destination => instr.redirect (range.map Line.handle) destination
  | none => instr

namespace Code

/-- The lines before a range, those of the range, which are `count` from a handle on, and
those after it. -/
structure Spans
    (code : Code) (first : Handle) (count : Nat) (before range after : List Line) :
    Prop where
  cut : code.lines = before ++ range ++ after
  length : range.length = count
  first : (range ++ after).head?.map Line.handle = some first

/-- The references into a range from the lines around it, in program order. -/
def intrusions (before range after : List Line) : List Handle :=
  (before ++ after).flatMap fun line => line.refs.filter (range.map Line.handle).contains

/-- References into a range are no hindrance to its removal: there are none from outside, or
the repair sends them to an instruction that stays. -/
def Mendable (code : Code) (repair : Repair) (before range after : List Line) : Prop :=
  (∀ line ∈ before ++ after, ∀ ref ∈ line.refs, ref ∉ range.map Line.handle) ∨
    (∃ target,
      repair = .to target ∧ code.contains target = true ∧ target ∉ range.map Line.handle) ∨
      (repair = .following ∧ after ≠ [])

variable {code : Code} {first : Handle} {count : Nat} {before range after : List Line}
  {repair : Repair}

theorem intrusions_eq_nil_iff :
    intrusions before range after = [] ↔
      ∀ line ∈ before ++ after, ∀ ref ∈ line.refs, ref ∉ range.map Line.handle := by
  simp only [intrusions, List.flatMap_eq_nil_iff, List.filter_eq_nil_iff,
    List.contains_iff_mem]

/-- Where nothing outside a range refers into it, mending changes nothing outside. -/
theorem map_mend_of_apart
    (apart : ∀ line ∈ before ++ after, ∀ ref ∈ line.refs, ref ∉ range.map Line.handle) :
    (before ++ after).map (Line.mapInstr (repair.mend range after)) = before ++ after := by
  calc
    (before ++ after).map (Line.mapInstr (repair.mend range after)) =
        (before ++ after).map id := by
      apply List.map_congr_left
      intro line member
      unfold Line.mapInstr Repair.mend
      cases repair.destination? after with
      | none => rfl
      | some destination =>
          dsimp only
          rw [Instr.redirect_eq_self (apart line member)]
          rfl
    _ = before ++ after := List.map_id _

/-! ## Ranges that fit -/

namespace Spans

theorem contains_first (linked : code.WellLinked)
    (spans : code.Spans first count before range after) :
    code.contains first = true := by
  have cut : code.lines = before ++ (range ++ after) := by
    rw [spans.cut, List.append_assoc]
  exact linked.contains_of_head? cut spans.first

/-- Going along the code from the first handle finds the range. -/
theorem range?_eq (linked : code.WellLinked)
    (spans : code.Spans first count before range after) :
    code.range? count (some first) =
      some (range.map Line.handle, after.head?.map Line.handle) := by
  have cut : code.lines = before ++ (range ++ after) := by
    rw [spans.cut, List.append_assoc]
  have found := linked.range?_eq count before (range ++ after) cut
  have enough : count ≤ (range ++ after).length := by
    rw [List.length_append, spans.length]
    exact Nat.le_add_right count after.length
  rw [spans.first, if_pos enough, ← spans.length, List.take_left, List.drop_left] at found
  rw [← spans.length]
  exact found

end Spans

/-- A range fits exactly if its first instruction is there and it ends with the code at the
latest. -/
theorem exists_spans_iff (linked : code.WellLinked) :
    (∃ before range after, code.Spans first count before range after) ↔
      ∃ position, code.position? first = some position ∧ position + count ≤ code.length := by
  constructor
  · rintro ⟨before, range, after, spans⟩
    obtain ⟨line, head, rfl⟩ := Option.map_eq_some_iff.mp spans.first
    obtain ⟨rest, restEq⟩ := List.head?_eq_some_iff.mp head
    have cut : code.lines = before ++ line :: rest := by
      rw [spans.cut, List.append_assoc, restEq]
    refine ⟨before.length, linked.position?_of_cut cut, ?_⟩
    rw [linked.length_eq, spans.cut, List.length_append, List.length_append, spans.length]
    omega
  · rintro ⟨position, placed, fits⟩
    have found := linked.position?_eq_some_iff.mp placed
    refine ⟨code.lines.take position, (code.lines.drop position).take count,
      (code.lines.drop position).drop count, ?_, ?_, ?_⟩
    · rw [List.append_assoc, List.take_append_drop, List.take_append_drop]
    · rw [List.length_take, List.length_drop, ← linked.length_eq]
      omega
    · rw [List.take_append_drop, List.head?_drop, ← List.getElem?_map]
      exact found

/-- Once the references into a range that fits are mended, it is taken out. -/
private theorem removeRange_of_mended
    {mended : Code}
    (linked : code.WellLinked) (spans : code.Spans first count before range after)
    (positive : count ≠ 0)
    (redirected :
      code.redirectIntruding (range.map Line.handle) (after.head?.map Line.handle) repair =
        (.ok (), mended)) :
    code.removeRange first count repair = unlinkAll (range.map Line.handle) mended := by
  simp only [removeRange, require_eq_ok_iff.mpr (spans.contains_first linked), if_neg positive,
    spans.range?_eq linked, redirected]

/-- A refused repair refuses the removal of a range that fits. -/
private theorem removeRange_of_refused
    {rejection : Rejection} {reached : Code}
    (linked : code.WellLinked) (spans : code.Spans first count before range after)
    (positive : count ≠ 0)
    (refused :
      code.redirectIntruding (range.map Line.handle) (after.head?.map Line.handle) repair =
        (.error rejection, reached)) :
    code.removeRange first count repair = (.error rejection, reached) := by
  simp only [removeRange, require_eq_ok_iff.mpr (spans.contains_first linked), if_neg positive,
    spans.range?_eq linked, refused]

/-! ## What comes of the removal -/

/-- What comes of the removal of a range that fits. -/
inductive RangeRemoval
    (code : Code) (repair : Repair) (before range after : List Line) :
    Except Rejection (List (Instr Handle)) × Code → Prop where
  | done {gone : List (Instr Handle)} {result : Code}
      (mendable : code.Mendable repair before range after)
      (opcodes : gone.map Instr.opcode = range.map fun line => line.instr.opcode)
      (lines :
        result.lines = (before ++ after).map (Line.mapInstr (repair.mend range after)))
      (linked : result.WellLinked) (tag : result.tag = code.tag) :
      RangeRemoval code repair before range after (.ok gone, result)
  | invalid {target : Handle}
      (intruded : intrusions before range after ≠ [])
      (wanted : repair = .to target)
      (unfit : ¬(code.contains target = true ∧ target ∉ range.map Line.handle)) :
      RangeRemoval code repair before range after (.error (.invalidRepair target), code)
  | dangling {hit : Handle} {others : List Handle} {position : Nat}
      (intruded : intrusions before range after = hit :: others)
      (nowhere : repair.destination? after = none)
      (placed : code.position? hit = some position) :
      RangeRemoval code repair before range after
        (.error (.danglingBranch position (others.length + 1)), code)

/-- An intruding reference is to an instruction of the range, which has a position. -/
private theorem exists_position_of_intrusions
    {hit : Handle} {others : List Handle}
    (linked : code.WellLinked) (cut : code.lines = before ++ range ++ after)
    (intruded : intrusions before range after = hit :: others) :
    ∃ position, code.position? hit = some position := by
  have member : hit ∈ intrusions before range after := by
    rw [intruded]
    exact List.mem_cons_self
  obtain ⟨line, _, refMember⟩ := List.mem_flatMap.mp member
  have inRange : hit ∈ range.map Line.handle :=
    List.contains_iff_mem.mp (List.mem_filter.mp refMember).2
  apply (linked.readsAsList.placed hit).mpr
  rw [linked.contains_iff, handles, cut, List.map_append, List.map_append]
  exact List.mem_append_left _ (List.mem_append_right _ inRange)

/-- Once the instructions of the code are mended in a way that the repair asks for, the range
goes. -/
private theorem rangeRemoval_of_mended
    {mended : Code} (mend : Instr Handle → Instr Handle)
    (linked : code.WellLinked) (spans : code.Spans first count before range after)
    (positive : count ≠ 0)
    (redirected :
      code.redirectIntruding (range.map Line.handle) (after.head?.map Line.handle) repair =
        (.ok (), mended))
    (mendable : code.Mendable repair before range after)
    (mendedLinked : mended.WellLinked) (tag : mended.tag = code.tag)
    (lines : mended.lines = code.lines.map (Line.mapInstr mend))
    (opcodes : ∀ instr, (mend instr).opcode = instr.opcode)
    (around :
      (before ++ after).map (Line.mapInstr mend) =
        (before ++ after).map (Line.mapInstr (repair.mend range after))) :
    RangeRemoval code repair before range after (code.removeRange first count repair) := by
  have cut :
      mended.lines =
        before.map (Line.mapInstr mend) ++ range.map (Line.mapInstr mend) ++
          after.map (Line.mapInstr mend) := by
    rw [lines, spans.cut, List.map_append, List.map_append]
  obtain ⟨result, taken, resultLinked, resultLines, resultTag, _⟩ :=
    mendedLinked.unlinkAll_eq _ cut
  rw [List.map_map, handle_comp_mapInstr] at taken
  rw [removeRange_of_mended linked spans positive redirected, taken]
  refine .done mendable ?_ ?_ resultLinked (resultTag.trans tag)
  · rw [List.map_map, List.map_map]
    exact List.map_congr_left fun line _ => opcodes line.instr
  · rw [resultLines, ← List.map_append, around]

/-- Where the references into a range go is decided by the repair: to its destination, which
must be live and outside, or nowhere. -/
private theorem repairTarget_cases
    (code : Code) (before range after : List Line) (hit : Handle) (repair : Repair) :
    (∃ destination,
      repair.destination? after = some destination ∧
        code.Mendable repair before range after ∧
          code.repairTarget (range.map Line.handle) (after.head?.map Line.handle) hit repair =
            .ok destination) ∨
      (∃ target,
        repair = .to target ∧
          ¬(code.contains target = true ∧ target ∉ range.map Line.handle) ∧
            code.repairTarget (range.map Line.handle) (after.head?.map Line.handle) hit
                repair =
              .error (.invalidRepair target)) ∨
      (repair.destination? after = none ∧
        code.repairTarget (range.map Line.handle) (after.head?.map Line.handle) hit repair =
          .error
            (.danglingBranch ((code.position? hit).getD 0)
              (code.intruding (range.map Line.handle)).length)) := by
  cases repair with
  | reject => exact Or.inr (Or.inr ⟨rfl, rfl⟩)
  | «to» target =>
      by_cases fit : code.contains target = true ∧ target ∉ range.map Line.handle
      · refine Or.inl ⟨target, rfl, Or.inr (Or.inl ⟨target, rfl, fit⟩), ?_⟩
        have sound :
            ¬((range.map Line.handle).contains target || !code.contains target) = true := by
          simpa [fit.1] using fit.2
        rw [repairTarget, if_neg sound]
      · refine Or.inr (Or.inl ⟨target, rfl, fit, ?_⟩)
        have unsound :
            ((range.map Line.handle).contains target || !code.contains target) = true := by
          by_contra sound
          simp only [Bool.or_eq_true, not_or, Bool.not_eq_true', Bool.not_eq_false,
            List.contains_iff_mem] at sound
          exact fit ⟨sound.2, sound.1⟩
        rw [repairTarget, if_pos unsound]
  | following =>
      cases after with
      | nil => exact Or.inr (Or.inr ⟨rfl, rfl⟩)
      | cons line rest =>
          exact Or.inl ⟨line.handle, rfl, Or.inr (Or.inr ⟨rfl, List.cons_ne_nil _ _⟩), rfl⟩

/-- A removal of a range that fits is decided by its intrusions and the repair. -/
theorem rangeRemoval_of_spans
    (linked : code.WellLinked) (spans : code.Spans first count before range after)
    (positive : count ≠ 0) (repair : Repair) :
    RangeRemoval code repair before range after (code.removeRange first count repair) := by
  have intruding : code.intruding (range.map Line.handle) = intrusions before range after :=
    intruding_of_cut linked spans.cut
  cases intruded : intrusions before range after with
  | nil =>
      have apart := intrusions_eq_nil_iff.mp intruded
      refine rangeRemoval_of_mended id linked spans positive ?_ (Or.inl apart) linked
        rfl (List.map_id _).symm (fun _ => rfl) ?_
      · rw [redirectIntruding, intruding, intruded]
        rfl
      · rw [map_mend_of_apart apart]
        exact List.map_id _
  | cons hit others =>
      have hitFirst : (code.intruding (range.map Line.handle)).head? = some hit := by
        rw [intruding, intruded]
        rfl
      have refuses {rejection : Rejection}
          (refused :
            code.repairTarget (range.map Line.handle) (after.head?.map Line.handle) hit repair =
              .error rejection) :
          code.removeRange first count repair = (.error rejection, code) := by
        apply removeRange_of_refused linked spans positive
        simp only [redirectIntruding, hitFirst, refused]
      rcases repairTarget_cases code before range after hit repair with
        ⟨destination, wanted, mendable, found⟩ | ⟨target, wanted, unfit, refused⟩ |
          ⟨nowhere, refused⟩
      · have mendEq :
            repair.mend range after =
              Instr.redirect (range.map Line.handle) destination := by
          funext instr
          rw [Repair.mend, wanted]
        have redirected :
            code.redirectIntruding (range.map Line.handle) (after.head?.map Line.handle) repair =
              (.ok (),
                code.mapInstrs (Instr.redirect (range.map Line.handle) destination)) := by
          simp only [redirectIntruding, hitFirst, found]
        exact rangeRemoval_of_mended _ linked spans positive redirected mendable
          (linked.mapInstrs _) rfl (code.lines_mapInstrs _) (fun _ => rfl) (by rw [mendEq])
      · rw [refuses refused]
        exact .invalid (intruded ▸ List.cons_ne_nil _ _) wanted unfit
      · obtain ⟨position, placed⟩ := exists_position_of_intrusions linked spans.cut intruded
        rw [placed, intruding, intruded] at refused
        rw [refuses refused]
        exact .dangling intruded nowhere placed

/-! ## Every removal -/

/-- When the removal of a range is carried out and what it then does, and which error it gives
otherwise: of two that apply, the one that comes first here. -/
structure RemovesExactly
    (code : Code) (first : Handle) (count : Nat) (repair : Repair) : Prop where
  succeeds :
    (∃ gone result, code.removeRange first count repair = (.ok gone, result)) ↔
      code.contains first = true ∧
        (count = 0 ∨
          ∃ before range after,
            code.Spans first count before range after ∧
              code.Mendable repair before range after)
  fits :
    (∃ before range after, code.Spans first count before range after) ↔
      ∃ position, code.position? first = some position ∧ position + count ≤ code.length
  nothing :
    code.contains first = true → count = 0 →
      code.removeRange first count repair = (.ok [], code)
  removes :
    ∀ gone result,
      code.removeRange first count repair = (.ok gone, result) →
        gone.length = count ∧
          ∃ before range after,
            code.Spans first count before range after ∧
              gone.map Instr.opcode = (range.map fun line => line.instr.opcode) ∧
                result.lines =
                  (before ++ after).map (Line.mapInstr (repair.mend range after))
  stale :
    code.contains first = false →
      code.removeRange first count repair = (.error (.staleHandle first), code)
  exceeds :
    ∀ position,
      code.position? first = some position → count ≠ 0 → code.length < position + count →
        code.removeRange first count repair =
          (.error (.positionOutOfRange (position + count - 1) code.length), code)
  invalid :
    ∀ before range after target,
      code.Spans first count before range after →
        intrusions before range after ≠ [] → repair = .to target →
          ¬(code.contains target = true ∧ target ∉ range.map Line.handle) →
            code.removeRange first count repair = (.error (.invalidRepair target), code)
  dangling :
    ∀ before range after hit others,
      code.Spans first count before range after →
        intrusions before range after = hit :: others → repair.destination? after = none →
          ∃ position,
            code.position? hit = some position ∧
              code.removeRange first count repair =
                (.error (.danglingBranch position (others.length + 1)), code)
  unchanged :
    ∀ rejection result,
      code.removeRange first count repair = (.error rejection, result) → result = code
  /-- The call comes to this, whatever the count, unless there is no room for its handles. -/
  panics :
    code.removeRange? first count repair = none ↔
      code.contains first = true ∧ capacity ≤ count
  answers :
    ∀ outcome,
      code.removeRange? first count repair = some outcome →
        outcome = code.removeRange first count repair

/-- References into a range that can be mended are sent somewhere, and to an instruction that
stays. -/
private theorem Mendable.sent
    (mendable : code.Mendable repair before range after)
    (intruded : intrusions before range after ≠ []) :
    (∃ destination, repair.destination? after = some destination) ∧
      ∀ target,
        repair = .to target →
          code.contains target = true ∧ target ∉ range.map Line.handle := by
  rcases mendable with apart | ⟨target, rfl, fit⟩ | ⟨rfl, more⟩
  · exact absurd (intrusions_eq_nil_iff.mpr apart) intruded
  · refine ⟨⟨target, rfl⟩, ?_⟩
    rintro other same
    cases same
    exact fit
  · refine ⟨?_, fun target same => by cases same⟩
    cases after with
    | nil => exact absurd rfl more
    | cons line rest => exact ⟨line.handle, rfl⟩

/-- Nothing intrudes into a range that holds nothing. -/
private theorem positive_of_intrusions
    (spans : code.Spans first count before range after)
    (intruded : intrusions before range after ≠ []) : count ≠ 0 := by
  rintro rfl
  obtain rfl := List.eq_nil_of_length_eq_zero spans.length
  apply intruded
  rw [intrusions_eq_nil_iff]
  exact fun _ _ _ _ => List.not_mem_nil

namespace WellLinked

/-- The removal of nothing from a live handle on. -/
private theorem removeRange_zero (live : code.contains first = true) :
    code.removeRange first 0 repair = (.ok [], code) := by
  rw [removeRange, require_eq_ok_iff.mpr live]
  rfl

private theorem removeRange_stale (dead : code.contains first = false) :
    code.removeRange first count repair = (.error (.staleHandle first), code) := by
  rw [removeRange, require, dead]
  rfl

private theorem contains_of_removeRange
    {gone : List (Instr Handle)} {result : Code}
    (done : code.removeRange first count repair = (.ok gone, result)) :
    code.contains first = true := by
  by_contra dead
  rw [removeRange_stale (Bool.eq_false_iff.mpr dead)] at done
  cases done

private theorem removeRange_exceeding
    {position : Nat}
    (linked : code.WellLinked) (placed : code.position? first = some position)
    (positive : count ≠ 0) (exceeding : code.length < position + count) :
    code.removeRange first count repair =
      (.error (.positionOutOfRange (position + count - 1) code.length), code) := by
  have live : code.contains first = true := (linked.readsAsList.placed first).mp ⟨_, placed⟩
  obtain ⟨before, line, after, cut, rfl⟩ := linked.exists_cut live
  have ranged := linked.range?_eq count before (line :: after) cut
  have tooShort : ¬count ≤ (line :: after).length := by
    obtain rfl := Option.some.inj ((linked.position?_of_cut cut).symm.trans placed)
    rw [linked.length_eq, cut, List.length_append] at exceeding
    omega
  rw [List.head?_cons, Option.map_some, if_neg tooShort] at ranged
  rw [removeRange, require_eq_ok_iff.mpr live]
  dsimp only
  rw [if_neg positive, ranged, placed]
  rfl

/-- A removal of something that is carried out took out a range that fits. -/
private theorem exists_spans_of_removeRange
    {gone : List (Instr Handle)} {result : Code}
    (linked : code.WellLinked) (positive : count ≠ 0)
    (done : code.removeRange first count repair = (.ok gone, result)) :
    ∃ before range after,
      code.Spans first count before range after ∧
        code.Mendable repair before range after ∧
          gone.map Instr.opcode = (range.map fun line => line.instr.opcode) ∧
            result.lines = (before ++ after).map (Line.mapInstr (repair.mend range after)) := by
  rcases removed_of_removeRange linked done with
    ⟨zero, _⟩ | ⟨before, range, after, mend, length, starts, _, removed⟩
  · exact absurd zero positive
  · have spans : code.Spans first count before range after := by
      refine ⟨removed.cut, length, ?_⟩
      obtain ⟨line, head, handleEq⟩ := Option.map_eq_some_iff.mp starts
      rw [List.head?_append, head]
      exact congrArg some handleEq
    have removal := rangeRemoval_of_spans linked spans positive repair
    rw [done] at removal
    cases removal with
    | done mendable opcodes lines _ _ =>
        exact ⟨before, range, after, spans, mendable, opcodes, lines⟩

/-- What can be mended is removed. -/
private theorem exists_removeRange_of_mendable
    (linked : code.WellLinked) (spans : code.Spans first count before range after)
    (mendable : code.Mendable repair before range after) :
    ∃ gone result, code.removeRange first count repair = (.ok gone, result) := by
  by_cases zero : count = 0
  · subst zero
    exact ⟨[], code, removeRange_zero (spans.contains_first linked)⟩
  · have removal := rangeRemoval_of_spans linked spans zero repair
    generalize code.removeRange first count repair = answer at removal
    cases removal with
    | done => exact ⟨_, _, rfl⟩
    | invalid intruded wanted unfit =>
        exact absurd ((mendable.sent intruded).2 _ wanted) unfit
    | dangling intruded nowhere placed =>
        obtain ⟨destination, found⟩ :=
          (mendable.sent (intruded ▸ List.cons_ne_nil _ _)).1
        cases nowhere.symm.trans found

private theorem removeRange_invalid
    {target : Handle}
    (linked : code.WellLinked) (spans : code.Spans first count before range after)
    (intruded : intrusions before range after ≠ [])
    (unfit : ¬(code.contains target = true ∧ target ∉ range.map Line.handle)) :
    code.removeRange first count (.to target) = (.error (.invalidRepair target), code) := by
  have removal :=
    rangeRemoval_of_spans linked spans (positive_of_intrusions spans intruded) (.to target)
  generalize code.removeRange first count (.to target) = answer at removal
  cases removal with
  | done mendable => exact absurd ((mendable.sent intruded).2 target rfl) unfit
  | invalid _ wanted _ =>
      cases wanted
      rfl
  | dangling _ nowhere _ => cases nowhere

private theorem removeRange_dangling
    {hit : Handle} {others : List Handle}
    (linked : code.WellLinked) (spans : code.Spans first count before range after)
    (intruded : intrusions before range after = hit :: others)
    (nowhere : repair.destination? after = none) :
    ∃ position,
      code.position? hit = some position ∧
        code.removeRange first count repair =
          (.error (.danglingBranch position (others.length + 1)), code) := by
  have some : intrusions before range after ≠ [] := by
    rw [intruded]
    exact List.cons_ne_nil hit others
  have removal :=
    rangeRemoval_of_spans linked spans (positive_of_intrusions spans some) repair
  generalize code.removeRange first count repair = answer at removal
  cases removal with
  | done mendable =>
      obtain ⟨destination, found⟩ := (mendable.sent some).1
      cases nowhere.symm.trans found
  | invalid _ wanted _ =>
      subst wanted
      cases nowhere
  | dangling intrudedToo _ placed =>
      cases intruded.symm.trans intrudedToo
      exact ⟨_, placed, rfl⟩

theorem removesExactly (linked : code.WellLinked) (first : Handle) (count : Nat)
    (repair : Repair) : code.RemovesExactly first count repair where
  succeeds := by
    constructor
    · rintro ⟨gone, result, done⟩
      refine ⟨contains_of_removeRange done, ?_⟩
      by_cases zero : count = 0
      · exact Or.inl zero
      · obtain ⟨before, range, after, spans, mendable, _⟩ :=
          exists_spans_of_removeRange linked zero done
        exact Or.inr ⟨before, range, after, spans, mendable⟩
    · rintro ⟨live, rfl | ⟨before, range, after, spans, mendable⟩⟩
      · exact ⟨[], code, removeRange_zero live⟩
      · exact exists_removeRange_of_mendable linked spans mendable
  fits := exists_spans_iff linked
  nothing := by
    rintro live rfl
    exact removeRange_zero live
  removes := by
    intro gone result done
    have live := contains_of_removeRange done
    by_cases zero : count = 0
    · subst zero
      rw [removeRange_zero live] at done
      cases done
      obtain ⟨before, line, after, cut, rfl⟩ := linked.exists_cut live
      have apart :
          ∀ other ∈ before ++ line :: after, ∀ ref ∈ other.refs,
            ref ∉ ([] : List Line).map Line.handle :=
        fun _ _ _ _ => List.not_mem_nil
      refine ⟨rfl, before, [], line :: after, ⟨?_, rfl, rfl⟩, rfl, ?_⟩
      · rw [List.append_nil]
        exact cut
      · rw [map_mend_of_apart apart]
        exact cut
    · obtain ⟨before, range, after, spans, _, opcodes, lines⟩ :=
        exists_spans_of_removeRange linked zero done
      refine ⟨?_, before, range, after, spans, opcodes, lines⟩
      rw [← List.length_map (f := Instr.opcode), opcodes, List.length_map, spans.length]
  stale := removeRange_stale
  exceeds := fun _ placed positive exceeding =>
    removeRange_exceeding linked placed positive exceeding
  invalid := by
    rintro before range after target spans intruded rfl unfit
    exact removeRange_invalid linked spans intruded unfit
  dangling := fun _ _ _ _ _ spans intruded nowhere =>
    removeRange_dangling linked spans intruded nowhere
  unchanged := fun _ _ refused => eq_of_removeRange_eq_error linked refused
  panics := by simp [removeRange?]
  answers := by
    intro outcome answered
    rw [removeRange?] at answered
    split at answered
    · cases answered
    · exact (Option.some.inj answered).symm

end WellLinked

end Code

end BytecodePatch
