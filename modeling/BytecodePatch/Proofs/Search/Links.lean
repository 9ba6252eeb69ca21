import BytecodePatch.Proofs.Code.Reading
import BytecodePatch.Proofs.Search.Landing

/-!
# Searches along the links

A search can be made without positions. From the cursor it goes along the links from one
instruction to the next, or back from one to the one before, and at each it goes along the
links again to hold the pattern against the instructions from there on. On well linked code
this comes to the same as the scans that go by position, because the links lead through the
lines.
-/

namespace BytecodePatch

variable {code : Code} {cursor : Cursor} {pattern : Pattern} {position : Nat}

/-! ## Windows along the links -/

theorem Pattern.isSome_windowAtFront? (pattern : Pattern) (lines : List Line) :
    (pattern.windowAtFront? lines).isSome = pattern.matchesFront lines := by
  unfold windowAtFront?
  cases pattern.matchesFront lines <;> rfl

namespace Code

/-- The handles of the window from a handle on, if the pattern matches it. One step along the
links is made for each test. -/
def windowFrom? (code : Code) : Pattern → Option Handle → Option (List Handle)
  | [], _ => some []
  | _ :: _, none => none
  | matcher :: matchers, some handle => do
      let instr ← code.get? handle
      if matcher.accepts instr then
        let handles ← windowFrom? code matchers (code.next? handle)
        return handle :: handles
      else none

/-- The window from a handle on, which must not be the skipped one. -/
def windowUnlessSkipped?
    (code : Code) (pattern : Pattern) (skipped : Option Handle) (handle : Handle) :
    Option (List Handle) :=
  if skipped = some handle then none else code.windowFrom? pattern (some handle)

/-- The links lead through the lines that a pattern is held against. -/
theorem WellLinked.windowFrom?_eq
    (linked : code.WellLinked) :
    ∀ (pattern : Pattern) (before rest : List Line),
      code.lines = before ++ rest →
        code.windowFrom? pattern (rest.head?.map Line.handle) = pattern.windowAtFront? rest
  | [], _, _, _ => by
      simp [windowFrom?, Pattern.windowAtFront?, Pattern.matchesFront]
  | _ :: _, _, [], _ => rfl
  | matcher :: matchers, before, line :: rest, cut => by
      have restCut : code.lines = (before ++ [line]) ++ rest := by
        simpa using cut
      have onwards := linked.windowFrom?_eq matchers (before ++ [line]) rest restCut
      rw [List.head?_cons, Option.map_some, windowFrom?, linked.get?_of_cut cut,
        linked.next?_eq cut, onwards, Pattern.windowAtFront?, Pattern.windowAtFront?,
        Pattern.matchesFront, Option.bind_eq_bind, Option.bind_some]
      cases matcher.accepts line.instr with
      | false => rfl
      | true => cases Pattern.matchesFront matchers rest <;> rfl

/-- The window from the handle at a position on is the window at this position. -/
theorem WellLinked.windowFrom?_handleAt?
    (linked : code.WellLinked) (pattern : Pattern) (position : Nat) :
    code.windowFrom? pattern (code.handleAt? position) = pattern.windowAt? code position := by
  rw [handleAt?_eq_head?]
  exact linked.windowFrom?_eq pattern _ _ (List.take_append_drop position code.lines).symm

end Code

/-! ## Ways from a cursor -/

namespace Cursor

/-- The handles that a search comes to, at most `bound` of them: from the cursor on along the
links, or back from the handle before it. -/
def way (cursor : Cursor) (code : Code) (bound : Nat) : Direction → List Handle
  | .forward => Code.walk code.next? bound cursor.next
  | .backward => Code.walk code.previous? bound (cursor.previous? code)

namespace StandsAt

theorem previous?_eq
    (stands : cursor.StandsAt code position) (linked : code.WellLinked) :
    cursor.previous? code = (code.lines.take position).getLast?.map Line.handle := by
  have cut : code.lines = code.lines.take position ++ code.lines.drop position :=
    (List.take_append_drop position code.lines).symm
  have place := stands.next
  rw [Code.handleAt?_eq_head?] at place
  unfold Cursor.previous?
  cases behind : code.lines.drop position with
  | nil =>
      rw [behind] at place cut
      rw [place, ← List.getLast?_map]
      dsimp only [List.head?_nil, Option.map_none]
      rw [linked.last?_eq, Code.handles, cut, List.append_nil, List.take_take, Nat.min_self]
  | cons line rest =>
      rw [behind] at place cut
      rw [place]
      exact linked.previous?_eq cut

/-- The way forward leads through the lines from the cursor on. -/
theorem way_forward
    (stands : cursor.StandsAt code position) (linked : code.WellLinked) (more : Nat) :
    cursor.way code (code.length + more) .forward =
      (code.lines.drop position).map Line.handle := by
  have bound : code.length + more = (code.lines.drop position).length + (position + more) := by
    have inside := stands.inside
    rw [linked.length_eq, List.length_drop]
    omega
  rw [way, stands.next, Code.handleAt?_eq_head?, bound]
  exact linked.walk_next? _ _ _ (List.take_append_drop position code.lines).symm

/-- The way back leads through the lines before the cursor, the last of them first. -/
theorem way_backward
    (stands : cursor.StandsAt code position) (linked : code.WellLinked) (more : Nat) :
    cursor.way code (code.length + more) .backward =
      ((code.lines.take position).map Line.handle).reverse := by
  have bound :
      code.length + more =
        (code.lines.take position).length + ((code.lines.drop position).length + more) := by
    rw [linked.length_eq, List.length_take, List.length_drop]
    omega
  rw [way, stands.previous?_eq linked, bound]
  exact linked.walk_previous? _ _ _ (List.take_append_drop position code.lines).symm

/-- Where so many steps beyond the first lead back to. -/
theorem getElem?_way_backward
    (stands : cursor.StandsAt code position) (linked : code.WellLinked) (more steps : Nat) :
    (cursor.way code (code.length + more) .backward)[steps]? =
      if steps < position then code.handleAt? (position - 1 - steps) else none := by
  have length : ((code.lines.take position).map Line.handle).length = position := by
    rw [List.length_map, List.length_take, Nat.min_eq_left stands.inside]
  rw [stands.way_backward linked]
  by_cases inside : steps < position
  · have before : position - 1 - steps < position := by omega
    rw [if_pos inside, List.getElem?_reverse (by rwa [length]), length, List.map_take,
      List.getElem?_take_of_lt before, Code.handleAt?, Code.handles]
  · rw [if_neg inside, List.getElem?_eq_none]
    rw [List.length_reverse, length]
    exact Nat.le_of_not_lt inside

end StandsAt

/-! ## Searches -/

variable {skipped : Option Handle}

private theorem firstWindow?_eq_findSome?
    (linked : code.WellLinked) :
    ∀ before rest : List Line,
      code.lines = before ++ rest →
        firstWindow? pattern skipped rest =
          (rest.map Line.handle).findSome? (code.windowUnlessSkipped? pattern skipped)
  | _, [], _ => rfl
  | before, line :: rest, cut => by
      have restCut : code.lines = (before ++ [line]) ++ rest := by
        simpa using cut
      have onwards := firstWindow?_eq_findSome? linked (before ++ [line]) rest restCut
      have window := linked.windowFrom?_eq pattern before (line :: rest) cut
      rw [List.head?_cons, Option.map_some] at window
      have here :
          (if skipped = some line.handle then none
            else pattern.windowAtFront? (line :: rest)) =
            code.windowUnlessSkipped? pattern skipped line.handle := by
        rw [Code.windowUnlessSkipped?, window]
      rw [firstWindow?, here, onwards, List.map_cons, List.findSome?_cons]
      cases code.windowUnlessSkipped? pattern skipped line.handle <;> rfl

private theorem lastWindow?_eq_findSome?
    (linked : code.WellLinked) (inside : position ≤ code.lines.length) :
    lastWindow? pattern skipped code position =
      ((code.lines.take position).map Line.handle).reverse.findSome?
        (code.windowUnlessSkipped? pattern skipped) := by
  induction position with
  | zero => rfl
  | succ position inductionHypothesis =>
      have placed : code.handleAt? position = some code.lines[position].handle := by
        rw [Code.handleAt?_eq_head?, List.drop_eq_getElem_cons inside]
        rfl
      have here :
          (if skipped = code.handleAt? position then none else pattern.windowAt? code position) =
            code.windowUnlessSkipped? pattern skipped code.lines[position].handle := by
        rw [← linked.windowFrom?_handleAt?, placed, Code.windowUnlessSkipped?]
      have back :
          ((code.lines.take (position + 1)).map Line.handle).reverse =
            code.lines[position].handle :: ((code.lines.take position).map Line.handle).reverse := by
        rw [List.take_succ_eq_append_getElem inside, List.map_append, List.map_singleton,
          List.reverse_concat]
      rw [lastWindow?, here, inductionHypothesis (Nat.le_of_succ_le inside), back,
        List.findSome?_cons]
      cases code.windowUnlessSkipped? pattern skipped code.lines[position].handle <;> rfl

/-- A scan by position finds what a search along the links finds, however many more steps this
may make than there are instructions. -/
theorem nearestWindow?_eq_findSome?
    (linked : code.WellLinked) (stands : cursor.StandsAt code position)
    (direction : Direction) (more : Nat) :
    nearestWindow? pattern skipped code position direction =
      (cursor.way code (code.length + more) direction).findSome?
        (code.windowUnlessSkipped? pattern skipped) := by
  cases direction with
  | forward =>
      rw [stands.way_forward linked]
      exact firstWindow?_eq_findSome? linked _ _ (List.take_append_drop position code.lines).symm
  | backward =>
      rw [stands.way_backward linked]
      exact lastWindow?_eq_findSome? linked stands.inside

/-! ## Matches at a cursor -/

namespace StandsAt

theorem matchesAt_eq
    (stands : cursor.StandsAt code position) (linked : code.WellLinked) (pattern : Pattern) :
    cursor.matchesAt code pattern =
      (!pattern.isEmpty && (code.windowFrom? pattern cursor.next).isSome) := by
  rw [Bool.eq_iff_iff, stands.matchesAt_iff linked, stands.next, linked.windowFrom?_handleAt?,
    Pattern.windowAt?, Pattern.isSome_windowAtFront?, ← Pattern.matchesFront_drop_iff]
  simp

/-- The window that ends before the cursor starts where as many steps lead back to as the
pattern has tests. -/
theorem matchesBefore_eq
    (stands : cursor.StandsAt code position) (linked : code.WellLinked) (pattern : Pattern)
    (more : Nat) :
    cursor.matchesBefore code pattern =
      (!pattern.isEmpty &&
        (code.windowFrom? pattern
          (cursor.way code (code.length + more) .backward)[pattern.length - 1]?).isSome) := by
  rw [Bool.eq_iff_iff, stands.matchesBefore_iff linked, stands.getElem?_way_backward linked]
  rcases pattern with _ | ⟨matcher, matchers⟩
  · simp
  · rw [List.length_cons, Nat.add_sub_cancel]
    by_cases long : matchers.length < position
    · have place : position - 1 - matchers.length = position - (matchers.length + 1) := by omega
      have fits : matchers.length + 1 ≤ position := long
      rw [if_pos long, place, linked.windowFrom?_handleAt?, Pattern.windowAt?,
        Pattern.isSome_windowAtFront?, ← Pattern.matchesFront_drop_iff]
      simp [fits]
    · have tooLong : ¬matchers.length + 1 ≤ position := long
      rw [if_neg long]
      simp [tooLong, Code.windowFrom?]

end StandsAt

end Cursor

/-! ## Positions and links -/

/-- With a cursor that has a position in the code, the scans and tests that go by positions come
to what going along the links comes to. No way goes on after the last instruction, however many
more steps it may have. -/
structure Code.SearchesByLinks (code : Code) (cursor : Cursor) : Prop where
  nearest :
    ∀ position,
      cursor.index code = .ok position →
        ∀ (pattern : Pattern) (skipped : Option Handle) (direction : Direction) (more : Nat),
          Cursor.nearestWindow? pattern skipped code position direction =
            (cursor.way code (code.length + more) direction).findSome?
              (code.windowUnlessSkipped? pattern skipped)
  matchesAt :
    (∃ position, cursor.index code = .ok position) →
      ∀ pattern : Pattern,
        cursor.matchesAt code pattern =
          (!pattern.isEmpty && (code.windowFrom? pattern cursor.next).isSome)
  matchesBefore :
    (∃ position, cursor.index code = .ok position) →
      ∀ (pattern : Pattern) (more : Nat),
        cursor.matchesBefore code pattern =
          (!pattern.isEmpty &&
            (code.windowFrom? pattern
              (cursor.way code (code.length + more) .backward)[pattern.length - 1]?).isSome)

theorem Code.WellLinked.searchesByLinks (linked : code.WellLinked) (cursor : Cursor) :
    code.SearchesByLinks cursor where
  nearest := by
    intro position indexed pattern skipped direction more
    have stands := Cursor.standsAt_of_index linked indexed
    exact Cursor.nearestWindow?_eq_findSome? linked stands direction more
  matchesAt := by
    intro indexed pattern
    obtain ⟨position, indexed⟩ := indexed
    exact (Cursor.standsAt_of_index linked indexed).matchesAt_eq linked pattern
  matchesBefore := by
    intro indexed pattern more
    obtain ⟨position, indexed⟩ := indexed
    exact (Cursor.standsAt_of_index linked indexed).matchesBefore_eq linked pattern more

end BytecodePatch
