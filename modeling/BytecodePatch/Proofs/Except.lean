import BytecodePatch.Patch.Error

/-!
# Computations that may be refused

When a computation in steps succeeds, each of its steps does. With these facts a successful
edit is taken apart into the checks that it passed and the change that it made.
-/

namespace BytecodePatch

variable {ε α β : Type}

theorem bind_eq_ok_iff {first : Except ε α} {next : α → Except ε β} {result : β} :
    (first >>= next) = .ok result ↔ ∃ value, first = .ok value ∧ next value = .ok result := by
  cases first with
  | error error => simp [bind, Except.bind]
  | ok value => simp [bind, Except.bind]

theorem pure_eq_ok_iff {value result : α} :
    (pure value : Except ε α) = .ok result ↔ value = result := by
  simp [pure, Except.pure]

theorem map_eq_ok_iff {refusable : Except ε α} {change : α → β} {result : β} :
    refusable.map change = .ok result ↔ ∃ value, refusable = .ok value ∧ change value = result := by
  cases refusable with
  | error error => simp [Except.map]
  | ok value => simp [Except.map]

theorem toOption_eq_some_iff {refusable : Except ε α} {result : α} :
    refusable.toOption = some result ↔ refusable = .ok result := by
  cases refusable <;> simp [Except.toOption]

theorem throw_ne_ok {error : ε} {result : α} : (throw error : Except ε α) ≠ .ok result := by
  intro equal
  cases equal

/-- A traversal with a step that accepts some elements, and gives each of them one answer,
succeeds exactly if all elements are accepted. -/
theorem mapM_eq_ok_iff_of_step
    {step : α → Except ε β} {accepts : α → Prop} {answer : α → β}
    (step_eq :
      ∀ value result, step value = .ok result ↔ accepts value ∧ result = answer value)
    {values : List α} {results : List β} :
    values.mapM step = .ok results ↔
      (∀ value ∈ values, accepts value) ∧ results = values.map answer := by
  induction values generalizing results with
  | nil =>
      rw [List.mapM_nil, pure_eq_ok_iff]
      simp [eq_comm]
  | cons value values inductionHypothesis =>
      rw [List.mapM_cons, bind_eq_ok_iff, List.map_cons, List.forall_mem_cons]
      constructor
      · rintro ⟨first, firstMade, rest⟩
        obtain ⟨accepted, rfl⟩ := (step_eq value first).mp firstMade
        obtain ⟨others, othersMade, joined⟩ := bind_eq_ok_iff.mp rest
        obtain ⟨othersAccepted, rfl⟩ := inductionHypothesis.mp othersMade
        exact ⟨⟨accepted, othersAccepted⟩, (pure_eq_ok_iff.mp joined).symm⟩
      · rintro ⟨⟨accepted, othersAccepted⟩, rfl⟩
        have firstMade := (step_eq value _).mpr ⟨accepted, rfl⟩
        have othersMade := inductionHypothesis.mpr ⟨othersAccepted, rfl⟩
        exact ⟨_, firstMade, bind_eq_ok_iff.mpr ⟨_, othersMade, rfl⟩⟩

/-- A traversal with a step that is refused for a fault, if there is one, is refused for the
first fault of its elements. -/
theorem mapM_elim {fault : α → Option ε} {answer : α → β} (values : List α) :
    (values.mapM fun value => (fault value).elim (.ok (answer value)) Except.error) =
      (values.findSome? fault).elim (.ok (values.map answer)) Except.error := by
  induction values with
  | nil => rfl
  | cons value values inductionHypothesis =>
      rw [List.mapM_cons, inductionHypothesis, List.findSome?_cons]
      cases fault value with
      | some error => rfl
      | none => cases values.findSome? fault <;> rfl

/-- A traversal of elements around one has the result for that one among the others. -/
theorem mapM_append_cons_eq_ok_iff
    {step : α → Except ε β} {above below : List α} {value : α} {results : List β} :
    (above ++ value :: below).mapM step = .ok results ↔
      ∃ upper result lower,
        above.mapM step = .ok upper ∧ step value = .ok result ∧ below.mapM step = .ok lower ∧
          results = upper ++ result :: lower := by
  simp only [List.mapM_append, List.mapM_cons, bind_eq_ok_iff, pure_eq_ok_iff]
  constructor
  · rintro ⟨upper, above, _, ⟨result, here, lower, below, rfl⟩, rfl⟩
    exact ⟨upper, result, lower, above, here, below, rfl⟩
  · rintro ⟨upper, result, lower, above, here, below, rfl⟩
    exact ⟨upper, above, _, ⟨result, here, lower, below, rfl⟩, rfl⟩

/-- A traversal is refused where its step is, if it was not refused before. -/
theorem mapM_append_cons_of_error
    {step : α → Except ε β} {above : List α} {upper : List β} {value : α} {error : ε}
    (before : above.mapM step = .ok upper) (refused : step value = .error error)
    (below : List α) :
    (above ++ value :: below).mapM step = .error error := by
  rw [List.mapM_append, List.mapM_cons, before, refused]
  rfl

/-- A result of a traversal comes from one of the elements. -/
theorem exists_of_mem_mapM
    {step : α → Except ε β} {values : List α} {results : List β} {result : β}
    (traversed : values.mapM step = .ok results) (member : result ∈ results) :
    ∃ value ∈ values, step value = .ok result := by
  induction values generalizing results with
  | nil =>
      rw [List.mapM_nil, pure_eq_ok_iff] at traversed
      exact absurd (traversed ▸ member) List.not_mem_nil
  | cons value values inductionHypothesis =>
      rw [List.mapM_cons] at traversed
      obtain ⟨first, firstMade, rest⟩ := bind_eq_ok_iff.mp traversed
      obtain ⟨others, othersMade, joined⟩ := bind_eq_ok_iff.mp rest
      rw [← pure_eq_ok_iff.mp joined] at member
      rcases List.mem_cons.mp member with rfl | later
      · exact ⟨value, List.mem_cons_self, firstMade⟩
      · obtain ⟨source, sourceMember, made⟩ := inductionHypothesis othersMade later
        exact ⟨source, List.mem_cons_of_mem _ sourceMember, made⟩

theorem liftRejection_eq_ok_iff {refusable : Except Rejection α} {result : α} :
    liftRejection refusable = .ok result ↔ refusable = .ok result := by
  cases refusable with
  | error rejection => simp [liftRejection]
  | ok value => simp [liftRejection]

end BytecodePatch
