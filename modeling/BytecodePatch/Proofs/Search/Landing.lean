import BytecodePatch.Proofs.Except
import BytecodePatch.Proofs.Search.Windows

/-!
# Searches and where they land

A cursor that is not stale stands at a position. A search from there finds the nearest window
in its direction whose start is not that of the last match, or none if there is none, and it
leaves the cursor before the window, behind it, or where it was.
-/

namespace BytecodePatch

/-- The position at which a search leaves its cursor, when it found a window of `count`
instructions. -/
def Landing.place (landing : Landing) (start count : Nat) : Nat :=
  match landing with
  | .before => start
  | .takingBranches => start
  | .after => start + count

namespace Cursor

/-- The cursor stands before the instruction at a position, or at the end. -/
structure StandsAt (cursor : Cursor) (code : Code) (position : Nat) : Prop where
  next : cursor.next = code.handleAt? position
  inside : position ≤ code.lines.length

variable {code : Code} {cursor : Cursor} {pattern : Pattern} {position start : Nat}

/-! ## Cursors at positions -/

theorem standsAt_length (next : cursor.next = none) :
    cursor.StandsAt code code.lines.length := by
  refine ⟨?_, Nat.le_refl _⟩
  rw [next, Code.handleAt?_eq_head?, List.drop_length]
  rfl

theorem standsAt_atStart (linked : code.WellLinked) : (atStart code).StandsAt code 0 := by
  refine ⟨?_, Nat.zero_le _⟩
  rw [atStart, fresh, linked.first?_eq, Code.handleAt?, List.head?_eq_getElem?]

theorem standsAt_of_cut
    {before after : List Line}
    (cut : code.lines = before ++ after) (place : cursor.next = after.head?.map Line.handle) :
    cursor.StandsAt code before.length := by
  constructor
  · rw [place, Code.handleAt?_eq_head?, cut, List.drop_left]
  · rw [cut, List.length_append]
    exact Nat.le_add_right _ _

/-- A cursor that is not stale stands somewhere. -/
theorem exists_standsAt
    (linked : code.WellLinked)
    (live : ∀ handle ∈ cursor.next, code.contains handle = true) :
    ∃ position, cursor.StandsAt code position := by
  obtain ⟨before, after, cut, place⟩ := linked.exists_cut_at live
  exact ⟨before.length, standsAt_of_cut cut place.symm⟩

/-- A cursor that has a position stands there. -/
theorem standsAt_of_index
    (linked : code.WellLinked) (indexed : cursor.index code = .ok position) :
    cursor.StandsAt code position := by
  unfold Cursor.index at indexed
  cases next : cursor.next with
  | none =>
      rw [next] at indexed
      obtain rfl := Except.ok.inj indexed
      rw [linked.length_eq]
      exact standsAt_length next
  | some handle =>
      rw [next] at indexed
      dsimp only at indexed
      cases placed : code.position? handle with
      | none =>
          rw [placed] at indexed
          cases indexed
      | some found =>
          rw [placed] at indexed
          obtain rfl := Except.ok.inj indexed
          have there := linked.position?_eq_some_iff.mp placed
          have bound := (List.getElem?_eq_some_iff.mp there).1
          rw [Code.handles, List.length_map] at bound
          exact ⟨next.trans there.symm, Nat.le_of_lt bound⟩

namespace StandsAt

/-- At the end, nothing follows the cursor. -/
private theorem position_eq_of_next_eq_none
    (stands : cursor.StandsAt code position) (next : cursor.next = none) :
    position = code.lines.length := by
  have none : code.handles[position]? = none := stands.next.symm.trans next
  have bound := List.getElem?_eq_none_iff.mp none
  rw [Code.handles, List.length_map] at bound
  exact Nat.le_antisymm stands.inside bound

theorem index
    (stands : cursor.StandsAt code position) (linked : code.WellLinked) :
    cursor.index code = .ok position := by
  unfold Cursor.index
  cases next : cursor.next with
  | none =>
      dsimp only
      rw [stands.position_eq_of_next_eq_none next, linked.length_eq]
  | some handle =>
      have placed := linked.position?_eq_some_iff.mpr (stands.next.symm.trans next)
      simp only [placed]

theorem matchesAt_iff
    (stands : cursor.StandsAt code position) (linked : code.WellLinked) :
    cursor.matchesAt code pattern = true ↔
      pattern ≠ [] ∧ pattern.MatchesFrom code.lines position := by
  unfold Cursor.matchesAt
  cases next : cursor.next with
  | none =>
      have ended := stands.position_eq_of_next_eq_none next
      constructor
      · intro matched
        simp at matched
      · rintro ⟨filled, matched⟩
        have bound := matched.lt_length filled
        omega
  | some handle =>
      have placed := linked.position?_eq_some_iff.mpr (stands.next.symm.trans next)
      simp [placed, Pattern.matchesFront_drop_iff]

theorem matchesBefore_iff
    (stands : cursor.StandsAt code position) (linked : code.WellLinked) :
    cursor.matchesBefore code pattern = true ↔
      pattern ≠ [] ∧ pattern.length ≤ position ∧
        pattern.MatchesFrom code.lines (position - pattern.length) := by
  unfold Cursor.matchesBefore
  rw [stands.index linked]
  simp [Pattern.matchesFront_drop_iff, and_assoc]

end StandsAt

/-! ## Where a search lands -/

/-- How a search leaves its cursor, when it found a window that starts at a position: the
pattern matches at the cursor, or before it if the cursor is behind the window. -/
structure Lands
    (landed : Cursor) (code : Code) (pattern : Pattern) (landing : Landing) (start : Nat) :
    Prop where
  stands : landed.StandsAt code (landing.place start pattern.length)
  index : landed.index code = .ok (landing.place start pattern.length)
  lastMatch : landed.lastMatch = code.handleAt? start
  pending : landed.pending = if landing = .takingBranches then landed.next else none
  matching :
    (if landing = .after then landed.matchesBefore code pattern
      else landed.matchesAt code pattern) = true

/-- Behind the last instruction of a window. -/
private theorem next?_getLast?_window
    {count : Nat}
    (linked : code.WellLinked) (positive : 0 < count)
    (inside : start + count ≤ code.lines.length) :
    (code.window start count).getLast?.bind code.next? = code.handleAt? (start + count) := by
  have present : start + count - 1 < code.handles.length := by
    rw [Code.handles, List.length_map]
    omega
  have placed :
      code.handleAt? (start + count - 1) = some code.handles[start + count - 1] :=
    List.getElem?_eq_getElem present
  have succ : start + count - 1 + 1 = start + count := by omega
  calc
    (code.window start count).getLast?.bind code.next? =
        code.next? code.handles[start + count - 1] := by
      rw [Code.getLast?_window positive inside, placed, Option.bind_some]
    _ = code.handleAt? (start + count) := by
      rw [linked.next?_of_handleAt? placed, succ]

theorem lands_land
    (landing : Landing) (linked : code.WellLinked)
    (filled : pattern ≠ []) (matched : pattern.MatchesFrom code.lines start) :
    Lands (land code (code.window start pattern.length) landing) code pattern landing start := by
  have positive : 0 < pattern.length := List.length_pos_iff.mpr filled
  have inside := matched.le_length filled
  have head := code.head?_window start positive
  have insideStart : start ≤ code.lines.length := by omega
  cases landing with
  | before =>
      have stands : (land code (code.window start pattern.length) .before).StandsAt code start :=
        ⟨head, insideStart⟩
      exact ⟨stands, stands.index linked, head, rfl,
        (stands.matchesAt_iff linked).mpr ⟨filled, matched⟩⟩
  | takingBranches =>
      have stands :
          (land code (code.window start pattern.length) .takingBranches).StandsAt code start :=
        ⟨head, insideStart⟩
      exact ⟨stands, stands.index linked, head, rfl,
        (stands.matchesAt_iff linked).mpr ⟨filled, matched⟩⟩
  | after =>
      have stands :
          (land code (code.window start pattern.length) .after).StandsAt code
            (start + pattern.length) :=
        ⟨next?_getLast?_window linked positive inside, inside⟩
      refine ⟨stands, stands.index linked, head, rfl, ?_⟩
      apply (stands.matchesBefore_iff linked).mpr
      refine ⟨filled, Nat.le_add_left _ _, ?_⟩
      rwa [Nat.add_sub_cancel]

/-- What a search from a position comes to: the cursor lands at the nearest window that is
offered, or it stays as it was because none is. -/
inductive Search
    (cursor : Cursor) (code : Code) (direction : Direction) (landing : Landing)
    (pattern : Pattern) (position : Nat) : Option (List Handle) × Cursor → Prop where
  | found {start : Nat} {landed : Cursor}
      (nearest : code.Nearest pattern cursor.lastMatch direction position start)
      (lands : landed.Lands code pattern landing start) :
      Search cursor code direction landing pattern position
        (some (code.window start pattern.length), landed)
  | missed
      (nothing :
        ∀ start, direction.Reaches position start →
          ¬code.Offers pattern cursor.lastMatch start) :
      Search cursor code direction landing pattern position (none, cursor)

private theorem find?_eq_ok
    {direction : Direction} {landing : Landing} {answer : Option (List Handle)}
    (linked : code.WellLinked) (stands : cursor.StandsAt code position)
    (filled : pattern ≠ [])
    (scanned : nearestWindow? pattern cursor.lastMatch code position direction = answer) :
    cursor.find? code direction landing pattern =
      .ok (answer, answer.elim cursor fun window => land code window landing) := by
  have notEmpty : ¬pattern.isEmpty = true := fun empty => filled (List.isEmpty_iff.mp empty)
  rw [find?, stands.index linked]
  dsimp only [bind, Except.bind]
  rw [if_neg notEmpty, scanned]
  cases answer <;> rfl

/-- A search for a pattern that is not empty is never refused. -/
theorem exists_search
    (direction : Direction) (landing : Landing)
    (linked : code.WellLinked) (stands : cursor.StandsAt code position)
    (filled : pattern ≠ []) :
    ∃ answer,
      cursor.find? code direction landing pattern = .ok answer ∧
        Search cursor code direction landing pattern position answer := by
  rcases Code.scansTo_nearestWindow? filled cursor.lastMatch direction position with
    ⟨start, nearest, answered⟩ | ⟨nothing, answered⟩
  · exact ⟨_, find?_eq_ok linked stands filled answered,
      .found nearest (lands_land landing linked filled nearest.offers.1)⟩
  · exact ⟨_, find?_eq_ok linked stands filled answered, .missed nothing⟩

/-- Only a cursor that is not stale finds something, and only by a pattern that is not empty. -/
theorem search_of_found
    {direction : Direction} {landing : Landing} {window : List Handle} {landed : Cursor}
    (linked : code.WellLinked)
    (found : cursor.find? code direction landing pattern = .ok (some window, landed)) :
    pattern ≠ [] ∧
      ∃ position,
        cursor.StandsAt code position ∧
          Search cursor code direction landing pattern position (some window, landed) := by
  obtain ⟨position, indexed, sought⟩ := bind_eq_ok_iff.mp found
  have stands := standsAt_of_index linked indexed
  have filled : pattern ≠ [] := by
    rintro rfl
    cases sought
  obtain ⟨answer, answered, search⟩ := exists_search direction landing linked stands filled
  obtain rfl := Except.ok.inj (answered.symm.trans found)
  exact ⟨filled, position, stands, search⟩

end Cursor

end BytecodePatch
