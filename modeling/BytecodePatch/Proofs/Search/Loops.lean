import BytecodePatch.Proofs.Patch.Emission

/-!
# Loops over the windows of a pattern

A loop searches from its cursor on, inserts instructions at the cursor whenever a window is
found, and is over as soon as a search finds none. What it visits is compared with the
positions from which the pattern matches in the code before the loop.

Going forward, the cursor stays ahead of all that the loop inserts, and each search passes
over what was found before: the loop visits all positions if it lands before its windows, and
those that are chosen from the left without overlap if it lands behind them. Going backward
without insertions, it visits all positions from the last to the first, unless it lands behind
windows that overlap. Then the search that starts within the lower of two such windows finds
the upper one again, and the loop is never over.
-/

namespace BytecodePatch

/-! ## Positions of windows -/

/-- Of numbers in rising order, those chosen from the left on so that the first is at least the
bound and each other at least `stride` beyond the one chosen before it. -/
def spaced (stride : Nat) : (bound : Nat) → List Nat → List Nat
  | _, [] => []
  | bound, start :: starts =>
      if bound ≤ start then start :: spaced stride (start + stride) starts
      else spaced stride bound starts

section Rising

variable {stride bound start : Nat} {starts : List Nat}

theorem spaced_eq_nil (below : ∀ other ∈ starts, other < bound) :
    spaced stride bound starts = [] := by
  induction starts with
  | nil => rfl
  | cons first rest inductionHypothesis =>
      obtain ⟨firstBelow, restBelow⟩ := List.forall_mem_cons.mp below
      rw [spaced, if_neg (Nat.not_le.mpr firstBelow)]
      exact inductionHypothesis restBelow

/-- The choice begins with the least number from the bound on, and goes on beyond it. -/
theorem spaced_eq_cons
    (positive : 0 < stride) (rising : starts.Pairwise (· < ·)) (member : start ∈ starts)
    (reached : bound ≤ start) (least : ∀ other ∈ starts, bound ≤ other → start ≤ other) :
    spaced stride bound starts = start :: spaced stride (start + stride) starts := by
  induction starts with
  | nil => simp at member
  | cons first rest inductionHypothesis =>
      obtain ⟨above, restRising⟩ := List.pairwise_cons.mp rising
      have notAbove : first ≤ start := by
        rcases List.mem_cons.mp member with rfl | later
        · exact Nat.le_refl _
        · exact Nat.le_of_lt (above start later)
      have passed : ¬start + stride ≤ first := by omega
      by_cases reachedFirst : bound ≤ first
      · have same : start = first := by
          have minimal := least first List.mem_cons_self reachedFirst
          omega
        subst same
        rw [spaced, if_pos reachedFirst, spaced, if_neg passed]
      · have later : start ∈ rest := by
          rcases List.mem_cons.mp member with rfl | later
          · exact absurd reached reachedFirst
          · exact later
        rw [spaced, if_neg reachedFirst, spaced, if_neg passed]
        exact inductionHypothesis restRising later
          fun other otherMember => least other (List.mem_cons_of_mem _ otherMember)

/-- Without a gap to keep, all numbers are chosen. -/
theorem spaced_one (rising : starts.Pairwise (· < ·)) (above : ∀ other ∈ starts, bound ≤ other) :
    spaced 1 bound starts = starts := by
  induction starts generalizing bound with
  | nil => rfl
  | cons first rest inductionHypothesis =>
      obtain ⟨restAbove, restRising⟩ := List.pairwise_cons.mp rising
      rw [spaced, if_pos (above first List.mem_cons_self)]
      exact congrArg _ (inductionHypothesis restRising restAbove)

/-- Below a bound, the greatest number comes last. -/
theorem filter_lt_eq_concat
    (rising : starts.Pairwise (· < ·)) (member : start ∈ starts) (below : start < bound)
    (greatest : ∀ other ∈ starts, other < bound → other ≤ start) :
    starts.filter (· < bound) = starts.filter (· < start) ++ [start] := by
  induction starts with
  | nil => simp at member
  | cons first rest inductionHypothesis =>
      obtain ⟨above, restRising⟩ := List.pairwise_cons.mp rising
      have restGreatest : ∀ other ∈ rest, other < bound → other ≤ start :=
        fun other otherMember => greatest other (List.mem_cons_of_mem _ otherMember)
      rcases List.mem_cons.mp member with rfl | later
      · have noneBelow : ∀ limit, (∀ other ∈ rest, limit ≤ other) →
            rest.filter (· < limit) = [] := by
          intro limit atLeast
          apply List.filter_eq_nil_iff.mpr
          intro other otherMember
          simpa using atLeast other otherMember
        have beyond : ∀ other ∈ rest, bound ≤ other := by
          intro other otherMember
          have larger := above other otherMember
          by_cases smaller : other < bound
          · have notLarger := restGreatest other otherMember smaller
            omega
          · omega
        rw [List.filter_cons_of_pos (by simpa using below), List.filter_cons_of_neg (by simp),
          noneBelow bound beyond,
          noneBelow start fun other otherMember => Nat.le_of_lt (above other otherMember)]
        rfl
      · have firstBelow := above start later
        have firstBelowBound : first < bound := by omega
        rw [List.filter_cons_of_pos (by simpa using firstBelowBound),
          List.filter_cons_of_pos (by simpa using firstBelow), List.cons_append,
          inductionHypothesis restRising later restGreatest]

end Rising

namespace Code

/-- The positions from which a pattern matches, in rising order. -/
def starts (code : Code) (pattern : Pattern) : List Nat :=
  (List.range code.lines.length).filter fun start => pattern.MatchesFrom code.lines start

/-- Two windows of a pattern have instructions in common. -/
def Overlapping (code : Code) (pattern : Pattern) : Prop :=
  ∃ start other,
    pattern.MatchesFrom code.lines start ∧ pattern.MatchesFrom code.lines other ∧
      start < other ∧ other < start + pattern.length

variable {code : Code} {pattern : Pattern}

theorem mem_starts_iff (filled : pattern ≠ []) {start : Nat} :
    start ∈ code.starts pattern ↔ pattern.MatchesFrom code.lines start := by
  rw [starts, List.mem_filter, List.mem_range, decide_eq_true_eq]
  exact ⟨And.right, fun matched => ⟨matched.lt_length filled, matched⟩⟩

theorem starts_below_length (filled : pattern ≠ []) :
    (code.starts pattern).filter (· < code.lines.length) = code.starts pattern := by
  apply List.filter_eq_self.mpr
  intro start member
  simpa using ((mem_starts_iff filled).mp member).lt_length filled

theorem pairwise_starts (code : Code) (pattern : Pattern) :
    (code.starts pattern).Pairwise (· < ·) :=
  List.Pairwise.filter _ List.pairwise_lt_range

/-- No two positions have the same instruction. -/
theorem WellLinked.handleAt?_inj
    (linked : code.WellLinked) {start other : Nat} (inside : start < code.lines.length) :
    code.handleAt? start = code.handleAt? other ↔ start = other := by
  have bound : start < code.handles.length := by
    rwa [handles, List.length_map]
  exact List.getElem?_inj bound linked.nodup_handles

end Code

namespace Cursor

/-! ## Loops -/

/-- What a loop of searches did: the windows it visited, the answers to what it inserted,
whether its last search found none, and the cursor and the code afterwards. -/
structure Tour where
  windows : List (List Handle)
  answers : List (Except PatchError Handle)
  ended : Bool
  cursor : Cursor
  code : Code

/-- Searches again and again from where the last search landed, with instructions inserted
there after each of them, until nothing is found or all insertions are made. -/
def tour
    (cursor : Cursor) (code : Code) (direction : Direction) (landing : Landing)
    (pattern : Pattern) : List (List (Instr Handle)) → Except PatchError Tour
  | [] => .ok ⟨[], [], false, cursor, code⟩
  | instrs :: insertions => do
      match ← cursor.find? code direction landing pattern with
      | (none, cursor) => return ⟨[], [], true, cursor, code⟩
      | (some window, cursor) =>
          let attempts := cursor.emitEach code instrs
          let rest ← tour attempts.cursor attempts.code direction landing pattern insertions
          return { rest with
            windows := window :: rest.windows
            answers := attempts.answers ++ rest.answers }

/-- A loop over given positions visits the windows there in order, as many as it has searches,
and it is over exactly if it has a search more. What it inserts is not in the code before. -/
def Visits
    (code : Code) (pattern : Pattern) (starts : List Nat) (searches : Nat)
    (result : Except PatchError Tour) : Prop :=
  ∃ tour,
    result = .ok tour ∧
      tour.windows =
          (starts.take searches).map (fun start => code.window start pattern.length) ∧
        (tour.ended = true ↔ starts.length < searches) ∧
          ∀ handle, .ok handle ∈ tour.answers → code.contains handle = false

variable {code current : Code} {cursor moved : Cursor} {direction : Direction}
  {landing : Landing} {pattern : Pattern} {instrs : List (Instr Handle)}
  {insertions : List (List (Instr Handle))} {start : Nat} {starts : List Nat}

theorem visits_nil (starts : List Nat) :
    Visits code pattern starts 0 (cursor.tour current direction landing pattern []) := by
  refine ⟨_, rfl, rfl, ?_, ?_⟩
  · simp
  · simp

theorem visits_of_missed
    (instrs : List (Instr Handle)) (insertions : List (List (Instr Handle)))
    (missed : cursor.find? current direction landing pattern = .ok (none, moved)) :
    Visits code pattern [] (insertions.length + 1)
      (cursor.tour current direction landing pattern (instrs :: insertions)) := by
  refine ⟨⟨[], [], true, moved, current⟩, ?_, rfl, ?_, ?_⟩
  · rw [tour, missed]
    rfl
  · simp
  · simp

theorem visits_of_found
    (found :
      cursor.find? current direction landing pattern =
        .ok (some (code.window start pattern.length), moved))
    (new :
      ∀ handle, .ok handle ∈ (moved.emitEach current instrs).answers →
        code.contains handle = false)
    (rest :
      Visits code pattern starts insertions.length
        ((moved.emitEach current instrs).cursor.tour (moved.emitEach current instrs).code
          direction landing pattern insertions)) :
    Visits code pattern (start :: starts) (insertions.length + 1)
      (cursor.tour current direction landing pattern (instrs :: insertions)) := by
  obtain ⟨others, done, windows, ended, othersNew⟩ := rest
  refine ⟨{ others with
    windows := code.window start pattern.length :: others.windows
    answers := (moved.emitEach current instrs).answers ++ others.answers }, ?_, ?_, ?_, ?_⟩
  · rw [tour, found]
    dsimp only [bind, Except.bind]
    rw [done]
    rfl
  · rw [windows]
    rfl
  · rw [ended, List.length_cons]
    omega
  · intro handle answered
    rcases List.mem_append.mp answered with here | later
    · exact new handle here
    · exact othersNew handle later

/-- A loop visits nothing that it inserted. -/
theorem Visits.unmatched
    {searches : Nat} {tour : Tour}
    (visits : Visits code pattern starts searches (.ok tour)) (linked : code.WellLinked) :
    ∀ window ∈ tour.windows, ∀ handle ∈ window, .ok handle ∉ tour.answers := by
  obtain ⟨same, done, windows, _, new⟩ := visits
  obtain rfl := Except.ok.inj done
  intro window member handle inWindow answered
  rw [windows] at member
  obtain ⟨start, _, rfl⟩ := List.mem_map.mp member
  have live := Code.contains_of_mem_window linked inWindow
  rw [new handle answered] at live
  contradiction

/-! ## Forward -/

/-- How far a loop goes on from a window before it takes the next. -/
def stride (landing : Landing) (count : Nat) : Nat :=
  match landing with
  | .before => 1
  | .takingBranches => 1
  | .after => count

theorem stride_pos (filled : pattern ≠ []) : 0 < stride landing pattern.length := by
  cases landing with
  | before => exact Nat.one_pos
  | takingBranches => exact Nat.one_pos
  | after => exact List.length_pos_iff.mpr filled

/-- The lines that a loop has ahead of it are those of the code before the loop, from a
position on. Of these, it passes over the positions before a bound. -/
structure Ahead
    (cursor : Cursor) (current code : Code) (position bound : Nat) : Prop where
  linked : current.WellLinked
  keeps : ∀ handle, code.contains handle = true → current.contains handle = true
  stands :
    ∃ place,
      cursor.StandsAt current place ∧ current.lines.drop place = code.lines.drop position
  settled : cursor.pending = none
  reached : position ≤ bound
  passes :
    ∀ start, position ≤ start → start < code.lines.length →
      (code.handleAt? start ≠ cursor.lastMatch ↔ bound ≤ start)

theorem ahead_atStart (linked : code.WellLinked) : (atStart code).Ahead code code 0 0 := by
  refine ⟨linked, fun _ live => live, ⟨0, standsAt_atStart linked, rfl⟩, rfl, Nat.le_refl 0, ?_⟩
  intro start _ inside
  exact iff_of_true (Code.handleAt?_ne_none inside) (Nat.zero_le start)

/-- Behind a window, the loop is ahead again, whatever it inserts there. -/
theorem Ahead.emitEach
    {place position earlier bound : Nat}
    (ahead : cursor.Ahead current code earlier bound)
    (linked : code.WellLinked) (filled : pattern ≠ []) (moves : landing ≠ .takingBranches)
    (same : current.lines.drop place = code.lines.drop position)
    (lands : moved.Lands current pattern landing place)
    (instrs : List (Instr Handle)) :
    (moved.emitEach current instrs).cursor.Ahead (moved.emitEach current instrs).code code
      (landing.place position pattern.length)
      (position + stride landing pattern.length) := by
  have fills := lands.stands.fills_emitEach ahead.linked instrs
  have settled : moved.pending = none := by
    rw [lands.pending, if_neg moves]
  obtain ⟨cursorEq, linesEq⟩ := fills.of_settled settled
  have onwards :
      current.lines.drop (landing.place place pattern.length) =
        code.lines.drop (landing.place position pattern.length) := by
    cases landing with
    | before => exact same
    | takingBranches => exact same
    | after => exact Code.drop_add_congr same _
  rw [onwards] at linesEq
  have next :
      (moved.emitEach current instrs).cursor.next =
        (code.lines.drop (landing.place position pattern.length)).head?.map Line.handle := by
    rw [cursorEq, lands.stands.next, Code.handleAt?_eq_head?, onwards]
  have last : moved.lastMatch = code.handleAt? position := by
    rw [lands.lastMatch, Code.handleAt?_congr same]
  refine ⟨fills.linked, ?_, ⟨_, standsAt_of_cut linesEq next, ?_⟩, ?_, ?_, ?_⟩
  · intro handle live
    exact fills.keeps ahead.linked (List.take_append_drop _ _).symm (ahead.keeps handle live)
  · rw [linesEq, List.drop_left]
  · rw [cursorEq, settled]
  · cases landing with
    | before => exact Nat.le_add_right _ _
    | takingBranches => exact Nat.le_add_right _ _
    | after => exact Nat.le_refl _
  · intro start beyond inside
    rw [cursorEq, last, Ne, linked.handleAt?_inj inside]
    cases landing with
    | before =>
        have here : position ≤ start := beyond
        simp only [stride]
        omega
    | takingBranches => exact absurd rfl moves
    | after =>
        have positive : 0 < pattern.length := List.length_pos_iff.mpr filled
        have behind : position + pattern.length ≤ start := beyond
        simp only [stride]
        omega

/-- What goes in there was not in the code before the loop. -/
theorem Ahead.new
    {place position bound : Nat} {handle : Handle}
    (ahead : cursor.Ahead current code position bound)
    (stands : moved.StandsAt current place)
    (answered : .ok handle ∈ (moved.emitEach current instrs).answers) :
    code.contains handle = false := by
  have new :=
    (stands.fills_emitEach ahead.linked instrs).new_of_answer ahead.linked
      (List.take_append_drop _ _).symm answered
  apply Bool.eq_false_iff.mpr
  intro live
  rw [ahead.keeps handle live] at new
  contradiction

/-- What is offered to a search of the loop, in terms of the code before the loop. -/
theorem Ahead.offers_iff
    {place position bound : Nat}
    (ahead : cursor.Ahead current code position bound) (filled : pattern ≠ [])
    (same : current.lines.drop place = code.lines.drop position) (offset : Nat) :
    current.Offers pattern cursor.lastMatch (place + offset) ↔
      pattern.MatchesFrom code.lines (position + offset) ∧ bound ≤ position + offset := by
  have shifted := Code.drop_add_congr same offset
  rw [Code.Offers, Pattern.matchesFrom_congr shifted, Code.handleAt?_congr shifted]
  constructor
  · rintro ⟨matched, other⟩
    have inside := matched.lt_length filled
    exact ⟨matched, (ahead.passes _ (Nat.le_add_right _ _) inside).mp other⟩
  · rintro ⟨matched, beyond⟩
    have inside := matched.lt_length filled
    exact ⟨matched, (ahead.passes _ (Nat.le_add_right _ _) inside).mpr beyond⟩

/-- All that is left from the bound on is offered. -/
theorem Ahead.offered
    {place position bound other : Nat}
    (ahead : cursor.Ahead current code position bound) (filled : pattern ≠ [])
    (same : current.lines.drop place = code.lines.drop position)
    (member : other ∈ code.starts pattern) (beyond : bound ≤ other) :
    current.Offers pattern cursor.lastMatch (place + (other - position)) := by
  have reached := ahead.reached
  have shift : position + (other - position) = other := by omega
  apply (ahead.offers_iff filled same (other - position)).mpr
  rw [shift]
  exact ⟨(Code.mem_starts_iff filled).mp member, beyond⟩

/-- Going forward, a loop visits what is left from its bound on. -/
theorem Ahead.visits
    {position bound : Nat}
    (linked : code.WellLinked) (filled : pattern ≠ []) (moves : landing ≠ .takingBranches)
    (insertions : List (List (Instr Handle)))
    (ahead : cursor.Ahead current code position bound) :
    Visits code pattern (spaced (stride landing pattern.length) bound (code.starts pattern))
      insertions.length (cursor.tour current .forward landing pattern insertions) := by
  induction insertions generalizing cursor current position bound with
  | nil => exact visits_nil _
  | cons instrs insertions inductionHypothesis =>
      obtain ⟨place, stands, same⟩ := ahead.stands
      obtain ⟨answer, searched, search⟩ :=
        exists_search .forward landing ahead.linked stands filled
      cases search with
      | missed nothing =>
          have below : ∀ other ∈ code.starts pattern, other < bound := by
            intro other member
            by_cases beyond : bound ≤ other
            · have offered := ahead.offered filled same member beyond
              exact absurd offered (nothing _ (Nat.le_add_right _ _))
            · exact Nat.lt_of_not_le beyond
          rw [spaced_eq_nil below]
          exact visits_of_missed instrs insertions searched
      | found nearest lands =>
          rename_i found landed
          obtain ⟨offset, rfl⟩ := Nat.exists_eq_add_of_le nearest.reaches
          obtain ⟨matched, beyond⟩ :=
            (ahead.offers_iff filled same offset).mp nearest.offers
          have least :
              ∀ other ∈ code.starts pattern, bound ≤ other → position + offset ≤ other := by
            intro other member reachedOther
            have reached := ahead.reached
            have offered := ahead.offered filled same member reachedOther
            have first := nearest.nearest _ offered (Nat.le_add_right _ _)
            simp only [Direction.NotAfter] at first
            omega
          have onwards := Code.drop_add_congr same offset
          rw [spaced_eq_cons (stride_pos filled) (code.pairwise_starts pattern)
            ((Code.mem_starts_iff filled).mpr matched) beyond least]
          rw [Code.window_congr onwards] at searched
          exact visits_of_found searched (fun _ => ahead.new lands.stands)
            (inductionHypothesis (ahead.emitEach linked filled moves onwards lands instrs))

/-! ## Backward -/

/-- What is offered to a search of the loop are the positions before a bound. -/
structure Behind
    (cursor : Cursor) (code : Code) (pattern : Pattern) (position bound : Nat) : Prop where
  stands : cursor.StandsAt code position
  offers_iff :
    ∀ start, pattern.MatchesFrom code.lines start →
      (start < position ∧ code.handleAt? start ≠ cursor.lastMatch ↔ start < bound)

/-- Any position is offered from the end on. -/
theorem offers_atEnd
    (filled : pattern ≠ []) (matched : pattern.MatchesFrom code.lines start) :
    code.Offers pattern atEnd.lastMatch start :=
  ⟨matched, Code.handleAt?_ne_none (matched.lt_length filled)⟩

theorem behind_atEnd (filled : pattern ≠ []) :
    atEnd.Behind code pattern code.lines.length code.lines.length := by
  refine ⟨standsAt_length rfl, ?_⟩
  intro start matched
  exact and_iff_left (offers_atEnd filled matched).2

/-- Behind a window, what lies before it is left, if no other window begins within it. -/
theorem behind_of_lands
    (linked : code.WellLinked) (filled : pattern ≠ [])
    (apart : ¬(landing = .after ∧ code.Overlapping pattern))
    (matched : pattern.MatchesFrom code.lines start)
    (lands : moved.Lands code pattern landing start) :
    moved.Behind code pattern (landing.place start pattern.length) start := by
  refine ⟨lands.stands, ?_⟩
  intro other otherMatched
  have inside := otherMatched.lt_length filled
  rw [lands.lastMatch, Ne, linked.handleAt?_inj inside]
  cases landing with
  | before =>
      simp only [Landing.place]
      omega
  | takingBranches =>
      simp only [Landing.place]
      omega
  | after =>
      simp only [Landing.place]
      constructor
      · rintro ⟨reached, different⟩
        by_cases earlier : other < start
        · exact earlier
        · have later : start < other := by omega
          exact absurd ⟨rfl, start, other, matched, otherMatched, later, reached⟩ apart
      · intro earlier
        omega

/-- Going backward without insertions, a loop visits what is left before its bound, from the
last position to the first. -/
theorem Behind.visits
    {position bound : Nat}
    (linked : code.WellLinked) (filled : pattern ≠ [])
    (apart : ¬(landing = .after ∧ code.Overlapping pattern)) (searches : Nat)
    (behind : cursor.Behind code pattern position bound) :
    Visits code pattern ((code.starts pattern).filter (· < bound)).reverse searches
      (cursor.tour code .backward landing pattern (List.replicate searches [])) := by
  induction searches generalizing cursor position bound with
  | zero => exact visits_nil _
  | succ searches inductionHypothesis =>
      obtain ⟨answer, searched, search⟩ :=
        exists_search .backward landing linked behind.stands filled
      cases search with
      | missed nothing =>
          have noneLeft : (code.starts pattern).filter (· < bound) = [] := by
            apply List.filter_eq_nil_iff.mpr
            intro other member
            have matched := (Code.mem_starts_iff filled).mp member
            have unreached : ¬other < bound := by
              intro below
              obtain ⟨reached, different⟩ := (behind.offers_iff other matched).mpr below
              exact nothing other reached ⟨matched, different⟩
            simpa using unreached
          rw [noneLeft]
          have whole : Visits code pattern [] ((List.replicate searches []).length + 1) _ :=
            visits_of_missed [] (List.replicate searches []) searched
          rwa [List.length_replicate] at whole
      | found nearest lands =>
          rename_i found landed
          have matched := nearest.offers.1
          have below :=
            (behind.offers_iff found matched).mp ⟨nearest.reaches, nearest.offers.2⟩
          have greatest :
              ∀ other ∈ code.starts pattern, other < bound → other ≤ found := by
            intro other member otherBelow
            have otherMatched := (Code.mem_starts_iff filled).mp member
            obtain ⟨reached, different⟩ := (behind.offers_iff other otherMatched).mpr otherBelow
            exact nearest.nearest other ⟨otherMatched, different⟩ reached
          rw [filter_lt_eq_concat (code.pairwise_starts pattern)
            ((Code.mem_starts_iff filled).mpr matched) below greatest, List.reverse_append,
            List.reverse_singleton, List.singleton_append]
          have rest :
              Visits code pattern ((code.starts pattern).filter (· < found)).reverse
                (List.replicate searches ([] : List (Instr Handle))).length
                (landed.tour code .backward landing pattern (List.replicate searches [])) := by
            rw [List.length_replicate]
            exact inductionHypothesis (behind_of_lands linked filled apart matched lands)
          have whole :
              Visits code pattern
                (found :: ((code.starts pattern).filter (· < found)).reverse)
                ((List.replicate searches []).length + 1)
                (cursor.tour code .backward landing pattern
                  ([] :: List.replicate searches [])) :=
            visits_of_found searched (fun _ answered => absurd answered List.not_mem_nil) rest
          rwa [List.length_replicate] at whole

/-- A loop that lands behind windows of which two overlap is never over: each search that ends
at the lower of them or above is followed by one that finds something. -/
theorem exists_tour_of_overlapping
    {position lower upper : Nat}
    (linked : code.WellLinked) (filled : pattern ≠ [])
    (lowerMatched : pattern.MatchesFrom code.lines lower)
    (upperMatched : pattern.MatchesFrom code.lines upper)
    (above : lower < upper) (overlap : upper < lower + pattern.length) (searches : Nat)
    (stands : cursor.StandsAt code position)
    (offered :
      ∃ start, lower ≤ start ∧ start < position ∧
        code.Offers pattern cursor.lastMatch start) :
    ∃ tour,
      cursor.tour code .backward .after pattern (List.replicate searches []) = .ok tour ∧
        tour.ended = false ∧ tour.windows.length = searches := by
  induction searches generalizing cursor position with
  | zero => exact ⟨_, rfl, rfl, rfl⟩
  | succ searches inductionHypothesis =>
      obtain ⟨candidate, notBelow, reached, offers⟩ := offered
      obtain ⟨answer, searched, search⟩ :=
        exists_search .backward .after linked stands filled
      cases search with
      | missed nothing => exact absurd offers (nothing candidate reached)
      | found nearest lands =>
          rename_i found landed
          have stillAbove : lower ≤ found := by
            have greatest := nearest.nearest candidate offers reached
            simp only [Direction.NotAfter] at greatest
            omega
          -- below the upper window there is the lower one, and below the lower one the upper
          have again :
              ∃ start, lower ≤ start ∧ start < found + pattern.length ∧
                code.Offers pattern landed.lastMatch start := by
            rw [lands.lastMatch]
            by_cases atLower : found = lower
            · refine ⟨upper, Nat.le_of_lt above, by omega, upperMatched, ?_⟩
              rw [Ne, linked.handleAt?_inj (upperMatched.lt_length filled)]
              omega
            · refine ⟨lower, Nat.le_refl _, by omega, lowerMatched, ?_⟩
              rw [Ne, linked.handleAt?_inj (lowerMatched.lt_length filled)]
              omega
          obtain ⟨rest, done, notEnded, length⟩ := inductionHypothesis lands.stands again
          refine ⟨{ rest with windows := code.window found pattern.length :: rest.windows },
            ?_, notEnded, congrArg Nat.succ length⟩
          rw [List.replicate_succ, tour, searched]
          dsimp only [bind, Except.bind, emitEach]
          rw [done]
          rfl

end Cursor

end BytecodePatch
