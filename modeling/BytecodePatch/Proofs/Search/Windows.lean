import BytecodePatch.Patch.Cursor
import BytecodePatch.Proofs.Code.Lines

/-!
# Windows that a pattern matches

A pattern matches lines from a position on if each of its tests accepts the instruction at
its place, counted from there. What it matches depends only on the lines from the position
on, so insertions before them do not matter.

The two scans for a window, along the lines and back from a position, agree with this
definition: each stops at the nearest position that is offered to it, which is one where the
pattern matches and which is not that of the skipped instruction.
-/

namespace BytecodePatch

/-! ## Matches by position -/

namespace Pattern

/-- Each test accepts the instruction at its place, counted from a position on. -/
def MatchesFrom (pattern : Pattern) (lines : List Line) (start : Nat) : Prop :=
  ∀ offset matcher,
    pattern[offset]? = some matcher →
      ∃ line, lines[start + offset]? = some line ∧ matcher.accepts line.instr = true

variable {pattern : Pattern} {lines : List Line} {start : Nat}

theorem matchesFrom_cons_iff {matcher : Matcher} :
    MatchesFrom (matcher :: pattern) lines start ↔
      (∃ line, lines[start]? = some line ∧ matcher.accepts line.instr = true) ∧
        pattern.MatchesFrom lines (start + 1) := by
  constructor
  · intro matched
    constructor
    · exact matched 0 matcher rfl
    · intro offset other found
      have shifted := matched (offset + 1) other found
      rwa [Nat.add_comm offset 1, ← Nat.add_assoc] at shifted
  · rintro ⟨first, rest⟩ offset other found
    cases offset with
    | zero =>
        obtain rfl := Option.some.inj found
        exact first
    | succ offset =>
        have shifted := rest offset other found
        rwa [Nat.add_assoc, Nat.add_comm 1 offset] at shifted

/-- The test of the front of the lines from a position on. -/
theorem matchesFront_drop_iff :
    pattern.matchesFront (lines.drop start) = true ↔ pattern.MatchesFrom lines start := by
  induction pattern generalizing start with
  | nil =>
      constructor
      · intro _ offset matcher found
        simp at found
      · intro _
        rw [matchesFront]
  | cons matcher pattern inductionHypothesis =>
      rw [matchesFrom_cons_iff, ← inductionHypothesis]
      by_cases inside : start < lines.length
      · rw [List.drop_eq_getElem_cons inside, matchesFront, Bool.and_eq_true,
          List.getElem?_eq_getElem inside]
        simp
      · have beyond : lines.length ≤ start := Nat.le_of_not_lt inside
        rw [List.drop_eq_nil_of_le beyond, matchesFront, List.getElem?_eq_none beyond]
        simp

instance (pattern : Pattern) (lines : List Line) (start : Nat) :
    Decidable (pattern.MatchesFrom lines start) :=
  decidable_of_iff _ matchesFront_drop_iff

/-- The lines from a position on decide whether a pattern matches there. -/
theorem matchesFrom_congr
    {others : List Line} {there : Nat}
    (same : lines.drop start = others.drop there) :
    pattern.MatchesFrom lines start ↔ pattern.MatchesFrom others there := by
  rw [← matchesFront_drop_iff, same, matchesFront_drop_iff]

/-- A window does not reach beyond the lines. -/
theorem MatchesFrom.le_length
    (filled : pattern ≠ []) (matched : pattern.MatchesFrom lines start) :
    start + pattern.length ≤ lines.length := by
  have positive : 0 < pattern.length := List.length_pos_iff.mpr filled
  have inPattern : pattern.length - 1 < pattern.length := by omega
  obtain ⟨line, found, _⟩ :=
    matched (pattern.length - 1) _ (List.getElem?_eq_getElem inPattern)
  have bound := (List.getElem?_eq_some_iff.mp found).1
  omega

theorem MatchesFrom.lt_length
    (filled : pattern ≠ []) (matched : pattern.MatchesFrom lines start) :
    start < lines.length := by
  have positive : 0 < pattern.length := List.length_pos_iff.mpr filled
  have bound := matched.le_length filled
  omega

end Pattern

namespace Code

/-- The handles of some instructions from a position on. -/
def window (code : Code) (start count : Nat) : List Handle :=
  (code.handles.drop start).take count

variable {code : Code} {pattern : Pattern} {skipped : Option Handle} {start position : Nat}

theorem handles_drop (code : Code) (start : Nat) :
    code.handles.drop start = (code.lines.drop start).map Line.handle := by
  rw [handles, List.map_drop]

theorem handleAt?_eq_head? (code : Code) (start : Nat) :
    code.handleAt? start = (code.lines.drop start).head?.map Line.handle := by
  rw [← List.head?_map, ← handles_drop, List.head?_drop, handleAt?]

section Alike

variable {other : Code} {place : Nat}

/-! Two codes go on alike from two positions. -/

theorem drop_add_congr
    (same : other.lines.drop place = code.lines.drop position) (offset : Nat) :
    other.lines.drop (place + offset) = code.lines.drop (position + offset) := by
  rw [← List.drop_drop, same, List.drop_drop]

theorem handleAt?_congr (same : other.lines.drop place = code.lines.drop position) :
    other.handleAt? place = code.handleAt? position := by
  rw [handleAt?_eq_head?, same, ← handleAt?_eq_head?]

theorem window_congr
    (same : other.lines.drop place = code.lines.drop position) (count : Nat) :
    other.window place count = code.window position count := by
  rw [window, window, handles_drop, handles_drop, same]

end Alike

theorem handleAt?_ne_none (inside : start < code.lines.length) : code.handleAt? start ≠ none := by
  rw [handleAt?_eq_head?, List.drop_eq_getElem_cons inside]
  exact Option.some_ne_none _

theorem contains_of_mem_window
    {count : Nat} {handle : Handle}
    (linked : code.WellLinked) (member : handle ∈ code.window start count) :
    code.contains handle = true :=
  linked.contains_iff.mpr (List.mem_of_mem_drop (List.mem_of_mem_take member))

theorem head?_window
    {count : Nat} (code : Code) (start : Nat) (positive : 0 < count) :
    (code.window start count).head? = code.handleAt? start := by
  rw [window, List.head?_take, if_neg (Nat.ne_of_gt positive), List.head?_drop, handleAt?]

theorem getLast?_window {count : Nat}
    (positive : 0 < count) (inside : start + count ≤ code.lines.length) :
    (code.window start count).getLast? = code.handleAt? (start + count - 1) := by
  have length : (code.window start count).length = count := by
    rw [window, List.length_take, List.length_drop, handles, List.length_map]
    omega
  have last : count - 1 < count := by omega
  have place : start + (count - 1) = start + count - 1 := by omega
  rw [List.getLast?_eq_getElem?, length, window, List.getElem?_take_of_lt last,
    List.getElem?_drop, place, handleAt?]

theorem WellLinked.next?_of_handleAt?
    {handle : Handle}
    (linked : code.WellLinked) (placed : code.handleAt? position = some handle) :
    code.next? handle = code.handleAt? (position + 1) := by
  have inside : position < code.lines.length := by
    have bound := (List.getElem?_eq_some_iff.mp placed).1
    rwa [handles, List.length_map] at bound
  have cut :
      code.lines =
        code.lines.take position ++ code.lines[position] :: code.lines.drop (position + 1) := by
    rw [← List.drop_eq_getElem_cons inside, List.take_append_drop]
  have own : code.lines[position].handle = handle := by
    rw [handleAt?_eq_head?, List.drop_eq_getElem_cons inside] at placed
    exact Option.some.inj placed
  rw [← own, linked.next?_eq cut, handleAt?_eq_head?]

/-! ## Where a scan stops -/

/-- The pattern matches from a position on, and this is not the position of the skipped
instruction. -/
def Offers (code : Code) (pattern : Pattern) (skipped : Option Handle) (start : Nat) : Prop :=
  pattern.MatchesFrom code.lines start ∧ code.handleAt? start ≠ skipped

instance (code : Code) (pattern : Pattern) (skipped : Option Handle) (start : Nat) :
    Decidable (code.Offers pattern skipped start) :=
  inferInstanceAs (Decidable (_ ∧ _))

end Code

/-- A search in a direction from a position on comes to another position. -/
def Direction.Reaches : Direction → (position start : Nat) → Prop
  | .forward, position, start => position ≤ start
  | .backward, position, start => start < position

/-- A search in a direction comes to one position no later than to the other. -/
def Direction.NotAfter : Direction → (start other : Nat) → Prop
  | .forward, start, other => start ≤ other
  | .backward, start, other => other ≤ start

namespace Code

/-- The nearest position that is offered to a search in a direction. -/
structure Nearest
    (code : Code) (pattern : Pattern) (skipped : Option Handle) (direction : Direction)
    (position start : Nat) : Prop where
  offers : code.Offers pattern skipped start
  reaches : direction.Reaches position start
  nearest :
    ∀ other, code.Offers pattern skipped other → direction.Reaches position other →
      direction.NotAfter start other

/-- What a scan answers: the window at the nearest position that is offered, or nothing if
none is. -/
def ScansTo
    (code : Code) (pattern : Pattern) (skipped : Option Handle) (direction : Direction)
    (position : Nat) (answer : Option (List Handle)) : Prop :=
  (∃ start,
    code.Nearest pattern skipped direction position start ∧
      answer = some (code.window start pattern.length)) ∨
    (∀ start, direction.Reaches position start → ¬code.Offers pattern skipped start) ∧
      answer = none

variable {code : Code} {pattern : Pattern} {skipped : Option Handle} {position : Nat}

/-- Both scans look at one position in the same way. -/
private theorem windowAt?_unless_skipped
    (code : Code) (pattern : Pattern) (skipped : Option Handle) (position : Nat) :
    (if skipped = code.handleAt? position then none else pattern.windowAt? code position) =
      if code.Offers pattern skipped position then
        some (code.window position pattern.length)
      else none := by
  have window :
      ((code.lines.drop position).take pattern.length).map Line.handle =
        code.window position pattern.length := by
    rw [Code.window, handles_drop, List.map_take]
  rw [Pattern.windowAt?, Pattern.windowAtFront?, window]
  by_cases same : skipped = code.handleAt? position
  · rw [if_pos same, if_neg fun offers => offers.2 same.symm]
  · rw [if_neg same]
    by_cases matched : pattern.MatchesFrom code.lines position
    · rw [if_pos (Pattern.matchesFront_drop_iff.mpr matched), if_pos ⟨matched, Ne.symm same⟩]
    · rw [if_neg fun front => matched (Pattern.matchesFront_drop_iff.mp front),
        if_neg fun offers => matched offers.1]

private theorem scansTo_firstWindow?
    (filled : pattern ≠ []) (rest : List Line) :
    ∀ position,
      code.lines.drop position = rest →
        code.ScansTo pattern skipped .forward position
          (Cursor.firstWindow? pattern skipped rest) := by
  induction rest with
  | nil =>
      intro position finished
      refine Or.inr ⟨?_, rfl⟩
      intro start reached offers
      have bound := offers.1.lt_length filled
      have ended : code.lines.length ≤ position := List.drop_eq_nil_iff.mp finished
      have later : position ≤ start := reached
      omega
  | cons line rest inductionHypothesis =>
      intro position cut
      have here : some line.handle = code.handleAt? position := by
        rw [handleAt?_eq_head?, cut]
        rfl
      have onwards : code.lines.drop (position + 1) = rest := by
        rw [← List.drop_drop, cut]
        rfl
      have look := code.windowAt?_unless_skipped pattern skipped position
      rw [Pattern.windowAt?, cut, ← here] at look
      rw [Cursor.firstWindow?, look]
      by_cases offers : code.Offers pattern skipped position
      · rw [if_pos offers]
        exact Or.inl ⟨position, ⟨offers, Nat.le_refl _, fun _ _ reached => reached⟩, rfl⟩
      · rw [if_neg offers]
        -- what is offered from here on is offered from the next position on
        have beyond :
            ∀ start, position ≤ start → code.Offers pattern skipped start →
              position + 1 ≤ start := by
          intro start reached offered
          rcases Nat.lt_or_eq_of_le reached with later | rfl
          · exact later
          · exact absurd offered offers
        rcases inductionHypothesis (position + 1) onwards with
          ⟨start, nearest, found⟩ | ⟨none, missed⟩
        · refine Or.inl ⟨start, ⟨nearest.offers, ?_, ?_⟩, found⟩
          · exact Nat.le_of_succ_le nearest.reaches
          · intro other offered reached
            exact nearest.nearest other offered (beyond other reached offered)
        · refine Or.inr ⟨?_, missed⟩
          intro start reached offered
          exact none start (beyond start reached offered) offered

private theorem scansTo_lastWindow? (position : Nat) :
    code.ScansTo pattern skipped .backward position
      (Cursor.lastWindow? pattern skipped code position) := by
  induction position with
  | zero =>
      exact Or.inr ⟨fun start reached => absurd reached (Nat.not_lt_zero start), rfl⟩
  | succ position inductionHypothesis =>
      rw [Cursor.lastWindow?, windowAt?_unless_skipped]
      by_cases offers : code.Offers pattern skipped position
      · rw [if_pos offers]
        refine Or.inl ⟨position, ⟨offers, Nat.lt_succ_self position, ?_⟩, rfl⟩
        intro other _ reached
        exact Nat.le_of_lt_succ reached
      · rw [if_neg offers]
        have before :
            ∀ start, start < position + 1 → code.Offers pattern skipped start →
              start < position := by
          intro start reached offered
          rcases Nat.lt_or_eq_of_le (Nat.le_of_lt_succ reached) with earlier | rfl
          · exact earlier
          · exact absurd offered offers
        rcases inductionHypothesis with ⟨start, nearest, found⟩ | ⟨none, missed⟩
        · refine Or.inl ⟨start, ⟨nearest.offers, ?_, ?_⟩, found⟩
          · exact Nat.lt_succ_of_lt nearest.reaches
          · intro other offered reached
            exact nearest.nearest other offered (before other reached offered)
        · refine Or.inr ⟨?_, missed⟩
          intro start reached offered
          exact none start (before start reached offered) offered

/-- Both scans find the nearest window. -/
theorem scansTo_nearestWindow?
    (filled : pattern ≠ []) (skipped : Option Handle) (direction : Direction) (position : Nat) :
    code.ScansTo pattern skipped direction position
      (Cursor.nearestWindow? pattern skipped code position direction) := by
  cases direction with
  | forward => exact scansTo_firstWindow? filled _ position rfl
  | backward => exact scansTo_lastWindow? position

end Code

end BytecodePatch
