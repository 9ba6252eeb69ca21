import BytecodePatch.Proofs.Code.Editing

/-!
# Retargeting counted

Retargeting is made as a whole or not at all: every handle is checked before anything changes.
When it is made, the slots of the listed instructions that refer to the source refer to the
destination, and no other slot is changed. An instruction that is listed twice counts once,
because its slots refer to the source no longer when it comes again.
-/

namespace BytecodePatch

/-- The slots of lines: what their instructions refer to, line by line. -/
def Line.slots (lines : List Line) : List Handle :=
  lines.flatMap Line.refs

/-- In how many slots two listings differ that have the same slots. -/
def Line.changedSlots (old new : List Line) : Nat :=
  ((Line.slots old).zip (Line.slots new)).countP fun (before, after) => before ≠ after

/-- The line after the listed instructions were retargeted. -/
def Line.retarget
    (branches : List Handle) (source destination : Handle) (line : Line) : Line :=
  if line.handle ∈ branches then line.mapInstr (Instr.redirect [source] destination) else line

/-- The number of slots of listed instructions that refer to the source. -/
def Line.slotsTo (source : Handle) (branches : List Handle) (lines : List Line) : Nat :=
  (Line.slots (lines.filter fun line => line.handle ∈ branches)).count source

namespace Code

/-- What retargeting the listed instructions did: which slots it changed, and the number that it
answered for them. Each slot of a listed instruction that refers to the source counts once. -/
structure RetargetedExactly
    (code : Code) (branches : List Handle) (source destination : Handle) (count : Nat)
    (result : Code) : Prop where
  lines : result.lines = code.lines.map (Line.retarget branches source destination)
  counted : count = Line.slotsTo source branches code.lines
  changed : count = Line.changedSlots code.lines result.lines

/-- Retargeting the listed instructions succeeds exactly if they and the destination are live. If
all instructions are retargeted, none refers to the source any longer. -/
structure RetargetsExactly
    (code : Code) (branches : List Handle) (source destination : Handle) : Prop where
  succeeds :
    (∃ count result, code.retargetFrom branches source destination = (.ok count, result)) ↔
      code.contains destination = true ∧ ∀ branch ∈ branches, code.contains branch = true
  retargets :
    ∀ count result,
      code.retargetFrom branches source destination = (.ok count, result) →
        code.RetargetedExactly branches source destination count result
  refused :
    ∀ rejection result,
      code.retargetFrom branches source destination = (.error rejection, result) →
        result = code ∧
          ∃ earlier handle later,
            destination :: branches = earlier ++ handle :: later ∧
              (∀ other ∈ earlier, code.contains other = true) ∧
                code.contains handle = false ∧ rejection = .staleHandle handle
  all :
    code.contains destination = true →
      ∃ count result,
        code.retarget source destination = (.ok count, result) ∧
          code.RetargetedExactly code.handles source destination count result ∧
            result.referrers source = []
  allRefused :
    ∀ rejection result,
      code.retarget source destination = (.error rejection, result) → result = code

end Code

/-! ## Slots -/

namespace Line

variable {branches : List Handle} {source destination : Handle}

@[simp]
theorem slots_nil : slots [] = [] :=
  rfl

@[simp]
theorem slots_cons (line : Line) (lines : List Line) :
    slots (line :: lines) = line.refs ++ slots lines :=
  rfl

theorem slots_append (left right : List Line) : slots (left ++ right) = slots left ++ slots right :=
  List.flatMap_append

/-- A line that was redirected refers to the source no longer. -/
theorem count_refs_mapInstr (apart : source ≠ destination) (line : Line) :
    (line.mapInstr (Instr.redirect [source] destination)).refs.count source = 0 := by
  rw [List.count_eq_zero]
  intro member
  rcases Instr.mem_refs_redirect member with same | ⟨_, elsewhere⟩
  · exact apart same
  · exact elsewhere (List.mem_singleton.mpr rfl)

/-- The slots that refer to the source are those of listed instructions, which are redirected,
and the others, which stay. -/
theorem count_slots
    (apart : source ≠ destination) (branches : List Handle) (lines : List Line) :
    (slots lines).count source =
      slotsTo source branches lines +
        (slots (lines.map (retarget branches source destination))).count source := by
  induction lines with
  | nil => rfl
  | cons line lines inductionHypothesis =>
      rw [slots_cons, List.count_append, inductionHypothesis, List.map_cons, slots_cons,
        List.count_append, slotsTo, slotsTo, retarget]
      by_cases listed : line.handle ∈ branches
      · rw [if_pos listed, List.filter_cons_of_pos (by simpa using listed), slots_cons,
          List.count_append, count_refs_mapInstr apart]
        omega
      · rw [if_neg listed, List.filter_cons_of_neg (by simpa using listed)]
        omega

/-- The slots of a redirected line differ from what they were where they referred to the source. -/
theorem countP_refs_mapInstr (apart : source ≠ destination) (line : Line) :
    (line.refs.zip (line.mapInstr (Instr.redirect [source] destination)).refs).countP
        (fun (before, after) => before ≠ after) =
      line.refs.count source := by
  have refsEq :
      (line.mapInstr (Instr.redirect [source] destination)).refs =
        line.refs.map fun ref => if ref ∈ [source] then destination else ref :=
    Instr.refs_map _ _
  rw [refsEq]
  induction line.refs with
  | nil => rfl
  | cons ref refs inductionHypothesis =>
      rw [List.map_cons, List.zip_cons_cons, List.countP_cons, List.count_cons,
        inductionHypothesis]
      by_cases isSource : ref = source
      · simp [isSource, apart]
      · simp [isSource]

theorem countP_zip_self (refs : List Handle) :
    (refs.zip refs).countP (fun (before, after) => before ≠ after) = 0 := by
  induction refs with
  | nil => rfl
  | cons ref refs inductionHypothesis =>
      rw [List.zip_cons_cons, List.countP_cons, inductionHypothesis]
      simp

theorem length_refs_mapInstr_redirect (line : Line) :
    (line.mapInstr (Instr.redirect [source] destination)).refs.length = line.refs.length := by
  simp [refs, mapInstr, Instr.redirect]

/-- Retargeting the listed instructions changes their slots that refer to the source. -/
theorem changedSlots_retarget
    (apart : source ≠ destination) (branches : List Handle) (lines : List Line) :
    changedSlots lines (lines.map (retarget branches source destination)) =
      slotsTo source branches lines := by
  induction lines with
  | nil => rfl
  | cons line lines inductionHypothesis =>
      rw [changedSlots, slotsTo] at *
      rw [List.map_cons, slots_cons, slots_cons, retarget]
      by_cases listed : line.handle ∈ branches
      · rw [if_pos listed, List.filter_cons_of_pos (by simpa using listed),
          List.zip_append (length_refs_mapInstr_redirect line).symm, List.countP_append,
          countP_refs_mapInstr apart, inductionHypothesis, slots_cons, List.count_append]
      · rw [if_neg listed, List.filter_cons_of_neg (by simpa using listed),
          List.zip_append rfl, List.countP_append, countP_zip_self, inductionHypothesis,
          Nat.zero_add]

end Line

namespace Code

variable {code result : Code} {branches : List Handle} {source destination : Handle}
  {count : Nat}

/-! ## Checks -/

theorem exists_retargetFrom_iff :
    (∃ count result, code.retargetFrom branches source destination = (.ok count, result)) ↔
      code.contains destination = true ∧ ∀ branch ∈ branches, code.contains branch = true := by
  constructor
  · intro carriedOut
    obtain ⟨count, result, done⟩ := carriedOut
    exact live_of_retargetFrom done
  · intro live
    exact ⟨_, _, retargetFrom_eq_ok source live.1 live.2⟩

/-- Handles are refused for the first of them that is not live. -/
theorem exists_of_requireAll_eq_error {handles : List Handle} {rejection : Rejection}
    (refused : code.requireAll handles = .error rejection) :
    ∃ earlier handle later,
      handles = earlier ++ handle :: later ∧
        (∀ other ∈ earlier, code.contains other = true) ∧
          code.contains handle = false ∧ rejection = .staleHandle handle := by
  induction handles with
  | nil => cases refused
  | cons handle handles inductionHypothesis =>
      rw [requireAll, require] at refused
      by_cases live : code.contains handle = true
      · rw [if_pos live] at refused
        obtain ⟨earlier, dead, later, rfl, others, rest⟩ := inductionHypothesis refused
        exact ⟨handle :: earlier, dead, later, rfl, List.forall_mem_cons.mpr ⟨live, others⟩, rest⟩
      · rw [if_neg live] at refused
        exact ⟨[], handle, handles, rfl, fun _ none => absurd none List.not_mem_nil,
          Bool.eq_false_iff.mpr live, (Except.error.inj refused).symm⟩

theorem requireAll_of_retargetFrom_eq_error {rejection : Rejection}
    (refused : code.retargetFrom branches source destination = (.error rejection, result)) :
    code.requireAll (destination :: branches) = .error rejection := by
  unfold retargetFrom at refused
  split at refused
  · rename_i stale
    cases refused
    exact stale
  · cases refused

/-! ## Counts -/

/-- Each step of a retargeting counts the slots that it takes from the source. -/
theorem count_slots_modify
    (linked : code.WellLinked) (apart : source ≠ destination) (branch : Handle) :
    (Line.slots code.lines).count source =
      code.refCount branch source +
        (Line.slots
          (code.modify branch (Instr.redirect [source] destination)).lines).count source := by
  unfold refCount
  cases found : code.get? branch with
  | none =>
      have unlisted : ∀ line ∈ code.lines, line.handle ≠ branch := by
        rintro line member rfl
        rw [linked.get?_of_mem member] at found
        cases found
      have same :
          (code.modify branch (Instr.redirect [source] destination)).lines = code.lines := by
        rw [linked.lines_modify]
        exact (List.map_congr_left fun line member => if_neg (unlisted line member)).trans
          (List.map_id _)
      rw [same, Nat.zero_add]
  | some instr =>
      obtain ⟨before, after, cut⟩ := List.append_of_mem (linked.get?_eq_some_iff.mp found)
      have redirected :=
        linked.lines_modify_of_cut (Instr.redirect [source] destination) cut
      have taken := Line.count_refs_mapInstr apart ⟨branch, instr⟩
      rw [redirected, cut, Line.slots_append, Line.slots_append, Line.slots_cons,
        Line.slots_cons, List.count_append, List.count_append, List.count_append,
        List.count_append, taken, Line.refs]
      dsimp only
      omega

/-- What a retargeting answers is the number of slots that it took from the source. -/
theorem count_slots_redirectIn
    (apart : source ≠ destination) (branches : List Handle) {code : Code}
    (linked : code.WellLinked) :
    (Line.slots code.lines).count source =
      (redirectIn source destination branches code).1 +
        (Line.slots (redirectIn source destination branches code).2.lines).count source := by
  induction branches generalizing code with
  | nil => rw [redirectIn, Nat.zero_add]
  | cons branch branches inductionHypothesis =>
      have first := count_slots_modify linked apart branch
      have rest :=
        inductionHypothesis (linked.modify branch (Instr.redirect [source] destination))
      rw [redirectIn]
      dsimp only
      omega

namespace WellLinked

theorem retargetedExactly
    (linked : code.WellLinked) (apart : source ≠ destination)
    (done : code.retargetFrom branches source destination = (.ok count, result)) :
    code.RetargetedExactly branches source destination count result := by
  have lines : result.lines = code.lines.map (Line.retarget branches source destination) :=
    (retargeted_of_retargetFrom linked done).lines
  have redirected : redirectIn source destination branches code = (count, result) := by
    obtain ⟨live, branchesLive⟩ := live_of_retargetFrom done
    rw [retargetFrom_eq_ok source live branchesLive] at done
    cases done
    rfl
  have counted : count = Line.slotsTo source branches code.lines := by
    have answered := count_slots_redirectIn apart branches linked
    rw [redirected, lines, Line.count_slots apart branches code.lines] at answered
    exact (Nat.add_right_cancel answered).symm
  exact ⟨lines, counted, by rw [lines, Line.changedSlots_retarget apart, counted]⟩

/-- Retargeting the referrers of the source is retargeting all instructions. -/
theorem retarget_referrers (linked : code.WellLinked) (source destination : Handle) :
    code.lines.map (Line.retarget (code.referrers source) source destination) =
      code.lines.map (Line.retarget code.handles source destination) := by
  apply List.map_congr_left
  intro line member
  have own : line.handle ∈ code.handles := List.mem_map_of_mem member
  rw [Line.retarget, linked.redirect_referrers source destination member, Line.retarget,
    if_pos own]

/-- Nothing refers to the source any longer once all instructions were retargeted. -/
theorem referrers_eq_nil_of_retarget
    (linked : code.WellLinked) (apart : source ≠ destination)
    (done : code.retarget source destination = (.ok count, result)) :
    result.referrers source = [] := by
  rw [referrers, List.map_eq_nil_iff, List.filter_eq_nil_iff,
    linked.changesAsList.retarget _ _ _ _ done]
  intro line member refers
  obtain ⟨old, _, rfl⟩ := List.mem_map.mp member
  exact List.count_eq_zero.mp (Line.count_refs_mapInstr apart old)
    (List.contains_iff_mem.mp refers)

theorem retargetsExactly
    (linked : code.WellLinked) (apart : source ≠ destination) (branches : List Handle) :
    code.RetargetsExactly branches source destination where
  succeeds := exists_retargetFrom_iff
  retargets := fun _ _ done => linked.retargetedExactly apart done
  refused := fun _ _ refused =>
    ⟨eq_of_retargetFrom_eq_error refused,
      exists_of_requireAll_eq_error (requireAll_of_retargetFrom_eq_error refused)⟩
  all := by
    intro live
    obtain ⟨count, result, done⟩ := linked.exists_retarget source live
    have exactly := linked.retargetedExactly apart done
    have lines := exactly.lines.trans (linked.retarget_referrers source destination)
    refine ⟨count, result, done, ⟨lines, ?_, exactly.changed⟩,
      linked.referrers_eq_nil_of_retarget apart done⟩
    rw [exactly.changed, lines, Line.changedSlots_retarget apart]
  allRefused := fun _ _ refused => eq_of_retargetFrom_eq_error refused

end WellLinked

end Code

end BytecodePatch
