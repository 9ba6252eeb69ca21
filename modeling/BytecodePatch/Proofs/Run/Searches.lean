import BytecodePatch.Proofs.Run.Action
import BytecodePatch.Proofs.Search.Loops

/-!
# Searches in reachable code

In all code that a run reaches, a search finds the nearest window, and what is inserted where
it landed takes over the branches there once and for all. Loops forward visit every window,
whatever they insert; loops backward do unless they land behind windows that overlap.
-/

namespace BytecodePatch

/-! ## One search -/

/-- A search from a cursor that is not stale lands at the nearest window that does not start
where the last match did, or there is none. The test of what is before a cursor agrees with
the positions too. -/
theorem search_of_run
    {start : Code} (origin : Origin start) (actions : List Action)
    {cursor : Cursor} {pattern : Pattern} (direction : Direction) (landing : Landing)
    (live : ∀ handle ∈ cursor.next, (start.run actions).contains handle = true)
    (filled : pattern ≠ []) :
    ∃ position,
      cursor.index (start.run actions) = .ok position ∧
        (∃ answer,
          cursor.find? (start.run actions) direction landing pattern = .ok answer ∧
            cursor.Search (start.run actions) direction landing pattern position answer) ∧
          ∀ other : Pattern,
            cursor.matchesBefore (start.run actions) other = true ↔
              other ≠ [] ∧ other.length ≤ position ∧
                other.MatchesFrom (start.run actions).lines (position - other.length) := by
  have linked := (origin.sound.run actions).linked
  obtain ⟨position, stands⟩ := Cursor.exists_standsAt linked live
  refine ⟨position, stands.index linked, ?_, ?_⟩
  · exact Cursor.exists_search direction landing linked stands filled
  · intro other
    exact stands.matchesBefore_iff linked

/-- Two windows before the end, of which the last match was the second. The first is found, and
the cursor lands between its second instruction and the end. -/
theorem search_of_run_skipping :
    let reached := (Code.empty 0).run
      [.append (.plain .dup), .append (.plain .dup), .append (.plain .dup)]
    let cursor : Cursor := ⟨none, none, some ⟨0, 1⟩⟩
    Origin (.empty 0) ∧ (∀ handle ∈ cursor.next, reached.contains handle = true) ∧
      (∃ position,
        cursor.index reached = .ok position ∧
          (∃ answer,
            cursor.find? reached .backward .after [.opcode .dup, .any] = .ok answer ∧
              cursor.Search reached .backward .after [.opcode .dup, .any] position answer) ∧
            ∀ other : Pattern,
              cursor.matchesBefore reached other = true ↔
                other ≠ [] ∧ other.length ≤ position ∧
                  other.MatchesFrom reached.lines (position - other.length)) ∧
      cursor.find? reached .backward .after [.opcode .dup, .any] =
        .ok (some [⟨0, 0⟩, ⟨0, 1⟩], ⟨some ⟨0, 2⟩, none, some ⟨0, 0⟩⟩) := by
  intro reached cursor
  have live : ∀ handle ∈ cursor.next, reached.contains handle = true :=
    fun _ absent => nomatch absent
  exact ⟨.empty 0, live,
    search_of_run (.empty 0) _ .backward .after live (List.cons_ne_nil _ _), by rfl⟩

/-! ## Taking over branches -/

/-- A search for taking over branches lands at an instruction. As long as it is live, the
branches into it move to the first instruction that is inserted there. -/
theorem takeover_of_run
    {start : Code} (origin : Origin start) (actions : List Action)
    {cursor landed : Cursor} {direction : Direction} {pattern : Pattern} {window : List Handle}
    (found :
      cursor.find? (start.run actions) direction .takingBranches pattern =
        .ok (some window, landed)) :
    ∃ source,
      window.head? = some source ∧ (start.run actions).contains source = true ∧
        ∀ later : List Action,
          ((start.run actions).run later).contains source = true →
            ∀ instrs : List (Instr Handle),
              landed.TakesOver ((start.run actions).run later) source instrs
                (landed.emitEach ((start.run actions).run later) instrs) := by
  have sound := origin.sound.run actions
  obtain ⟨filled, _, _, search⟩ := Cursor.search_of_found sound.linked found
  cases search with
  | found nearest lands =>
      rename_i first
      have positive : 0 < pattern.length := List.length_pos_iff.mpr filled
      have inside := nearest.offers.1.lt_length filled
      obtain ⟨source, there⟩ := Option.ne_none_iff_exists'.mp (Code.handleAt?_ne_none inside)
      have head := Code.head?_window (start.run actions) first positive
      have next : landed.next = some source := lands.stands.next.trans there
      have waiting : landed.pending = some source := by
        rw [lands.pending, if_pos rfl, next]
      refine ⟨source, head.trans there, ?_, ?_⟩
      · exact Code.contains_of_mem_window sound.linked
          (List.mem_of_head? (head.trans there))
      · intro later live instrs
        exact Cursor.takesOver (sound.run later).linked live next waiting instrs

/-- A branch to itself, which a switch refers to twice. Of the instructions that are inserted
at it, the first is refused, the second takes over the branches and still refers to it, and
the third takes over nothing. -/
theorem takeover_of_run_loop :
    let reached := (Code.empty 0).run
      [.append (.plain .nop), .append ⟨.branchIfTrue, .target ⟨0, 0⟩⟩,
        .replaceOperand ⟨0, 1⟩ (.target ⟨0, 1⟩),
        .insertBeforeAt 0 ⟨.switch, .targets [⟨0, 1⟩, ⟨0, 0⟩, ⟨0, 1⟩]⟩]
    let landed : Cursor := ⟨some ⟨0, 1⟩, some ⟨0, 1⟩, some ⟨0, 1⟩⟩
    let instrs : List (Instr Handle) :=
      [⟨.branch, .target ⟨0, 9⟩⟩, ⟨.branch, .target ⟨0, 1⟩⟩, .plain .nop]
    Origin (.empty 0) ∧
      (Cursor.atStart reached).find? reached .forward .takingBranches
          [.opcode .branchIfTrue] =
        .ok (some [⟨0, 1⟩], landed) ∧
      (∃ source,
        [(⟨0, 1⟩ : Handle)].head? = some source ∧ reached.contains source = true ∧
          ∀ later : List Action,
            (reached.run later).contains source = true →
              ∀ instrs : List (Instr Handle),
                landed.TakesOver (reached.run later) source instrs
                  (landed.emitEach (reached.run later) instrs)) ∧
      (landed.emitEach reached instrs).code.lines =
        [⟨⟨0, 2⟩, ⟨.switch, .targets [⟨0, 3⟩, ⟨0, 0⟩, ⟨0, 3⟩]⟩⟩, ⟨⟨0, 0⟩, .plain .nop⟩,
          ⟨⟨0, 3⟩, ⟨.branch, .target ⟨0, 1⟩⟩⟩, ⟨⟨0, 4⟩, .plain .nop⟩,
          ⟨⟨0, 1⟩, ⟨.branchIfTrue, .target ⟨0, 3⟩⟩⟩] := by
  intro reached landed instrs
  have found :
      (Cursor.atStart reached).find? reached .forward .takingBranches
          [.opcode .branchIfTrue] =
        .ok (some [⟨0, 1⟩], landed) := by
    rfl
  exact ⟨.empty 0, found, takeover_of_run (.empty 0) _ found, by decide +kernel⟩

/-! ## Loops -/

/-- A loop forward visits the windows of the code before the loop: all of them if it lands
before them, and those chosen from the left without overlap if it lands behind them. Whatever
it inserts is not visited. -/
theorem sweep_of_run
    {start : Code} (origin : Origin start) (actions : List Action)
    {pattern : Pattern} (filled : pattern ≠ [])
    (insertions : List (List (Instr Handle))) :
    let code := start.run actions
    Cursor.Visits code pattern (code.starts pattern) insertions.length
        ((Cursor.atStart code).tour code .forward .before pattern insertions) ∧
      Cursor.Visits code pattern (spaced pattern.length 0 (code.starts pattern))
        insertions.length
        ((Cursor.atStart code).tour code .forward .after pattern insertions) ∧
      ∀ landing : Landing,
        landing ≠ .takingBranches →
          ∀ tour,
            (Cursor.atStart code).tour code .forward landing pattern insertions = .ok tour →
              ∀ window ∈ tour.windows, ∀ handle ∈ window, .ok handle ∉ tour.answers := by
  intro code
  have linked : code.WellLinked := (origin.sound.run actions).linked
  have visits :
      ∀ landing : Landing,
        landing ≠ .takingBranches →
          Cursor.Visits code pattern
            (spaced (Cursor.stride landing pattern.length) 0 (code.starts pattern))
            insertions.length
            ((Cursor.atStart code).tour code .forward landing pattern insertions) :=
    fun _ moves => (Cursor.ahead_atStart linked).visits linked filled moves insertions
  refine ⟨?_, visits .after nofun, ?_⟩
  · have all := visits .before nofun
    rwa [Cursor.stride, spaced_one (code.pairwise_starts pattern) fun _ _ => Nat.zero_le _]
      at all
  · intro landing moves tour done
    have visited := visits landing moves
    rw [done] at visited
    exact visited.unmatched linked

/-- Two overlapping windows. Before each of them instructions are inserted that the pattern
matches; behind the first of them, nothing is left. -/
theorem sweep_of_run_overlapping :
    let reached := (Code.empty 0).run
      [.append (.plain .nop), .append (.plain .nop), .append (.plain .nop)]
    let insertions : List (List (Instr Handle)) :=
      [[.plain .nop, .plain .nop], [.plain .nop], [.plain .nop]]
    Origin (.empty 0) ∧
      (Cursor.Visits reached [.any, .any] (reached.starts [.any, .any]) 3
          ((Cursor.atStart reached).tour reached .forward .before [.any, .any] insertions) ∧
        Cursor.Visits reached [.any, .any] (spaced 2 0 (reached.starts [.any, .any])) 3
          ((Cursor.atStart reached).tour reached .forward .after [.any, .any] insertions) ∧
        ∀ landing : Landing,
          landing ≠ .takingBranches →
            ∀ tour,
              (Cursor.atStart reached).tour reached .forward landing [.any, .any] insertions =
                  .ok tour →
                ∀ window ∈ tour.windows, ∀ handle ∈ window, .ok handle ∉ tour.answers) ∧
      reached.starts [.any, .any] = [0, 1] ∧ spaced 2 0 [0, 1] = [0] :=
  ⟨.empty 0, sweep_of_run (.empty 0) _ (List.cons_ne_nil _ _) _, by decide +kernel, by decide⟩

/-- A loop backward that inserts nothing visits all windows from the last to the first, unless
it lands behind windows that overlap. Then every search finds something, and the loop is never
over. -/
theorem backward_of_run
    {start : Code} (origin : Origin start) (actions : List Action)
    {pattern : Pattern} (filled : pattern ≠ []) (landing : Landing) (searches : Nat) :
    let code := start.run actions
    (¬(landing = .after ∧ code.Overlapping pattern) →
        Cursor.Visits code pattern (code.starts pattern).reverse searches
          (Cursor.atEnd.tour code .backward landing pattern
            (List.replicate searches []))) ∧
      (landing = .after ∧ code.Overlapping pattern →
        ∃ tour,
          Cursor.atEnd.tour code .backward landing pattern (List.replicate searches []) =
              .ok tour ∧
            tour.ended = false ∧ tour.windows.length = searches) := by
  intro code
  have linked : code.WellLinked := (origin.sound.run actions).linked
  have stands : Cursor.atEnd.StandsAt code code.lines.length := Cursor.standsAt_length rfl
  constructor
  · intro apart
    have visits := (Cursor.behind_atEnd filled).visits linked filled apart searches
    rwa [Code.starts_below_length filled] at visits
  · rintro ⟨rfl, lower, upper, lowerMatched, upperMatched, above, overlap⟩
    exact Cursor.exists_tour_of_overlapping linked filled lowerMatched upperMatched above overlap
      searches stands
      ⟨lower, Nat.le_refl _, lowerMatched.lt_length filled,
        Cursor.offers_atEnd filled lowerMatched⟩

/-- Two overlapping windows: the loop that lands before them is over after both of them, and the
loop that lands behind them is not. -/
theorem backward_of_run_overlapping :
    let reached := (Code.empty 0).run
      [.append (.plain .nop), .append (.plain .nop), .append (.plain .nop)]
    Origin (.empty 0) ∧ reached.Overlapping [.any, .any] ∧
      Cursor.Visits reached [.any, .any] (reached.starts [.any, .any]).reverse 3
        (Cursor.atEnd.tour reached .backward .before [.any, .any] [[], [], []]) ∧
      ∃ tour,
        Cursor.atEnd.tour reached .backward .after [.any, .any] [[], [], []] = .ok tour ∧
          tour.ended = false ∧ tour.windows.length = 3 := by
  intro reached
  have overlapping : reached.Overlapping [.any, .any] :=
    ⟨0, 1, by decide +kernel, by decide +kernel, by decide, by decide⟩
  refine ⟨.empty 0, overlapping, ?_, ?_⟩
  · exact (backward_of_run (.empty 0) _ (List.cons_ne_nil _ _) .before 3).1 (by simp)
  · exact (backward_of_run (.empty 0) _ (List.cons_ne_nil _ _) .after 3).2 ⟨rfl, overlapping⟩

/-- The third search from the end finds the last window again, where the loop should be over. -/
theorem not_visits_backward_of_overlapping :
    let reached := (Code.empty 0).run
      [.append (.plain .nop), .append (.plain .nop), .append (.plain .nop)]
    let tour := Cursor.atEnd.tour reached .backward .after [.any, .any] [[], [], []]
    tour.map Cursor.Tour.windows =
        .ok [[⟨0, 1⟩, ⟨0, 2⟩], [⟨0, 0⟩, ⟨0, 1⟩], [⟨0, 1⟩, ⟨0, 2⟩]] ∧
      ¬Cursor.Visits reached [.any, .any] (reached.starts [.any, .any]).reverse 3 tour := by
  intro reached tour
  have windows :
      tour.map Cursor.Tour.windows =
        .ok [[⟨0, 1⟩, ⟨0, 2⟩], [⟨0, 0⟩, ⟨0, 1⟩], [⟨0, 1⟩, ⟨0, 2⟩]] := by
    rfl
  refine ⟨windows, ?_⟩
  rintro ⟨done, same, expected, _⟩
  rw [same] at windows
  have found := Except.ok.inj windows
  have twice : (reached.starts [.any, .any]).reverse = [1, 0] := by decide +kernel
  rw [expected, twice] at found
  exact absurd (congrArg List.length found) (by simp)

end BytecodePatch
