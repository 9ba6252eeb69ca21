import BytecodePatch.Text.Blank
import Mathlib.Data.List.DropRight

/-!
# Trimming and cutting

A trimmed text neither starts nor ends with a blank, so that trimming it again changes
nothing, and what stands between two trimmed texts keeps its blanks. A text is cut at a mark
where the part on the one side does not have the mark.
-/

namespace BytecodePatch.Text

theorem trimEnd_trimEnd (text : List Char) : trimEnd (trimEnd text) = trimEnd text :=
  List.rdropWhile_idempotent isBlank text

/-- A text that starts with no blank is not changed by trimming its start. -/
private theorem trimStart_of_head?
    {text : List Char}
    (solid : ∀ character ∈ text.head?, isBlank character = false) :
    trimStart text = text := by
  cases text with
  | nil => rfl
  | cons character rest =>
      have first := solid character (by simp)
      exact List.dropWhile_cons_of_neg (by simp [first])

private theorem head?_trimStart (text : List Char) :
    ∀ character ∈ (trimStart text).head?, isBlank character = false := by
  intro character first
  have notBlank := List.head?_dropWhile_not isBlank text
  rw [Option.mem_def] at first
  rw [trimStart] at first
  rw [first] at notBlank
  exact notBlank

private theorem head?_trim (text : List Char) :
    ∀ character ∈ (trim text).head?, isBlank character = false := by
  intro character first
  apply head?_trimStart text
  obtain ⟨cut, parts⟩ : trim text <+: trimStart text :=
    List.rdropWhile_prefix isBlank _
  rw [← parts, List.head?_append, Option.mem_def.mp first]
  rfl

theorem trim_trim (text : List Char) : trim (trim text) = trim text := by
  rw [trim, trimStart_of_head? (head?_trim text), trim, trimEnd_trimEnd]

/-- Trimming changes nothing exactly if no blank stands at either end. -/
theorem trim_eq_self_iff {text : List Char} :
    trim text = text ↔
      (∀ character ∈ text.head?, isBlank character = false) ∧
        ∀ character ∈ text.getLast?, isBlank character = false := by
  constructor
  · intro trimmed
    refine ⟨?_, ?_⟩
    · have first := head?_trim text
      rwa [trimmed] at first
    · intro character last
      rw [← trimmed] at last
      obtain ⟨nonempty, rfl⟩ := List.mem_getLast?_eq_getLast last
      exact Bool.eq_false_iff.mpr (List.rdropWhile_last_not isBlank (trimStart text) nonempty)
  · rintro ⟨first, last⟩
    rw [trim, trimStart_of_head? first]
    apply List.rdropWhile_eq_self_iff.mpr
    intro nonempty blank
    rw [last _ (List.getLast_mem_getLast? nonempty)] at blank
    cases blank

/-- What stands between two trimmed texts that are not empty is not trimmed. -/
theorem trim_between
    {left right : List Char} (middle : List Char)
    (leftTrimmed : trim left = left) (rightTrimmed : trim right = right)
    (leftNonempty : left ≠ []) (rightNonempty : right ≠ []) :
    trim (left ++ middle ++ right) = left ++ middle ++ right := by
  obtain ⟨first, _⟩ := trim_eq_self_iff.mp leftTrimmed
  obtain ⟨_, last⟩ := trim_eq_self_iff.mp rightTrimmed
  apply trim_eq_self_iff.mpr
  constructor
  · rw [List.append_assoc, List.head?_append_of_ne_nil _ leftNonempty]
    exact first
  · rw [List.getLast?_append_of_ne_nil _ rightNonempty]
    exact last

/-- Trimming removes the blanks around a text that has none at its ends. -/
theorem trim_padded
    {left text right : List Char}
    (leftBlank : ∀ character ∈ left, isBlank character = true)
    (rightBlank : ∀ character ∈ right, isBlank character = true)
    (trimmed : trim text = text) (nonempty : text ≠ []) :
    trim (left ++ text ++ right) = text := by
  have first := (trim_eq_self_iff.mp trimmed).1
  have start : trimStart (left ++ text ++ right) = text ++ right := by
    have solid : trimStart (text ++ right) = text ++ right := by
      apply trimStart_of_head?
      rwa [List.head?_append_of_ne_nil _ nonempty]
    rw [List.append_assoc, trimStart, List.dropWhile_append_of_pos leftBlank]
    exact solid
  have finish : trimEnd (text ++ right) = trimEnd text := by
    have blank : ∀ character ∈ right.reverse, isBlank character = true :=
      fun character inside => rightBlank character (List.mem_reverse.mp inside)
    rw [trimEnd, List.reverse_append, List.dropWhile_append_of_pos blank, trimEnd]
  have own : trimEnd text = text := by
    rwa [trim, trimStart_of_head? first] at trimmed
  rw [trim, start, finish, own]

/-! ## Cuts -/

/-- A text is cut at the first mark. -/
theorem cutFirst?_append {mark : Char} {left : List Char} (right : List Char)
    (unmarked : mark ∉ left) :
    cutFirst? mark (left ++ mark :: right) = some (left, right) := by
  induction left with
  | nil => simp [cutFirst?]
  | cons character left inductionHypothesis =>
      obtain ⟨other, rest⟩ := not_or.mp (mt List.mem_cons.mpr unmarked)
      rw [List.cons_append, cutFirst?, if_neg (Ne.symm other), inductionHypothesis rest]
      rfl

theorem cutFirst?_eq_none {mark : Char} {text : List Char} (unmarked : mark ∉ text) :
    cutFirst? mark text = none := by
  induction text with
  | nil => rfl
  | cons character text inductionHypothesis =>
      obtain ⟨other, rest⟩ := not_or.mp (mt List.mem_cons.mpr unmarked)
      rw [cutFirst?, if_neg (Ne.symm other), inductionHypothesis rest]
      rfl

theorem cutLast?_eq_none {mark : Char} {text : List Char} (unmarked : mark ∉ text) :
    cutLast? mark text = none := by
  induction text with
  | nil => rfl
  | cons character text inductionHypothesis =>
      obtain ⟨other, rest⟩ := not_or.mp (mt List.mem_cons.mpr unmarked)
      rw [cutLast?, inductionHypothesis rest]
      exact if_neg (Ne.symm other)

/-- A text is cut at the last mark. -/
theorem cutLast?_append {mark : Char} (left : List Char) {right : List Char}
    (unmarked : mark ∉ right) :
    cutLast? mark (left ++ mark :: right) = some (left, right) := by
  induction left with
  | nil =>
      rw [List.nil_append, cutLast?, cutLast?_eq_none unmarked]
      exact if_pos rfl
  | cons character left inductionHypothesis =>
      rw [List.cons_append, cutLast?, inductionHypothesis]

end BytecodePatch.Text
