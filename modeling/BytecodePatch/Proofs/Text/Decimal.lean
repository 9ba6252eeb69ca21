import BytecodePatch.Program.Listing
import Mathlib.Data.Nat.Log
import Mathlib.Order.Bounds.Defs
import Std.Data.String.ToNat

/-!
# Decimal numbers in columns

The decimal form of a number has one digit more than its logarithm says, so a column of
positions is as wide as the last of them, and never narrower than one digit. A number that is
padded with zeros fills its column, and the zeros do not count when it is read back.
-/

namespace BytecodePatch

/-! ## Widths of columns -/

theorem decimalWidth_eq (number : Nat) : decimalWidth number = Nat.log 10 number + 1 := by
  induction number using decimalWidth.induct with
  | case1 number small =>
      rw [decimalWidth, if_pos small, Nat.log_of_lt small]
  | case2 number large inductionHypothesis =>
      rw [decimalWidth, if_neg large, inductionHypothesis,
        Nat.log_of_one_lt_of_le (by decide) (Nat.le_of_not_lt large)]

/-- The width is that of the last position. With fewer than two positions it is that of one,
so that there is a logarithm. -/
theorem positionWidth_eq (count : Nat) :
    positionWidth count = Nat.log 10 (max (count - 1) 1) + 1 := by
  rw [positionWidth, decimalWidth_eq]
  rcases Nat.eq_zero_or_pos (count - 1) with none | some
  · rw [none, Nat.zero_max, Nat.log_zero_right, Nat.log_one_right]
  · rw [Nat.max_eq_left some]

/-- The decimal form of every position below a count fits into a width. -/
def PositionsFit (count width : Nat) : Prop :=
  ∀ position < count, (toString position).length ≤ width

theorem positionsFit_iff {count width : Nat} (positive : 1 ≤ width) :
    PositionsFit count width ↔ positionWidth count ≤ width := by
  have clamped : max (count - 1) 1 ≠ 0 := by omega
  have fitsOne : 1 < 10 ^ width := Nat.one_lt_pow (Nat.ne_of_gt positive) (by decide)
  have fits_iff (position : Nat) :
      (toString position).length ≤ width ↔ position < 10 ^ width :=
    Nat.length_repr_le_iff positive
  rw [positionWidth_eq, Nat.succ_le_iff, Nat.log_lt_iff_lt_pow (by decide) clamped]
  simp only [PositionsFit, fits_iff]
  constructor
  · intro fits
    have last := fits (count - 1)
    omega
  · intro wide position inside
    omega

/-- The width of a column of positions is the least one, from one on, that they all fit into. -/
theorem isLeast_positionWidth (count : Nat) :
    IsLeast {width | 1 ≤ width ∧ PositionsFit count width} (positionWidth count) := by
  have positive : 1 ≤ positionWidth count := by
    rw [positionWidth_eq]
    exact Nat.le_add_left 1 _
  refine ⟨⟨positive, (positionsFit_iff positive).mpr (Nat.le_refl _)⟩, ?_⟩
  intro width member
  obtain ⟨widthPositive, fits⟩ := member
  exact (positionsFit_iff widthPositive).mp fits

example :
    positionWidth 0 = 1 ∧ positionWidth 10 = 1 ∧ positionWidth 11 = 2 ∧
      positionWidth 100 = 2 ∧ positionWidth 101 = 3 := by
  decide +kernel

/-! ## Padded numbers -/

section Padded

variable {width number : Nat}

theorem toList_paddedNumber (width number : Nat) :
    (paddedNumber width number).toList =
      List.replicate (width - (Nat.toDigits 10 number).length) '0' ++ Nat.toDigits 10 number :=
  String.toList_ofList

/-- A number that fits fills the column. -/
theorem length_paddedNumber (fits : (toString number).length ≤ width) :
    (paddedNumber width number).length = width := by
  have digits : (Nat.toDigits 10 number).length ≤ width := by
    rwa [← String.length_toList, Nat.toString_eq_repr, Nat.toList_repr] at fits
  rw [← String.length_toList, toList_paddedNumber, List.length_append, List.length_replicate]
  omega

theorem isDigit_of_mem_paddedNumber
    {character : Char} (member : character ∈ (paddedNumber width number).toList) :
    character.isDigit = true := by
  rw [toList_paddedNumber] at member
  rcases List.mem_append.mp member with padding | digit
  · rw [List.eq_of_mem_replicate padding]
    rfl
  · exact Nat.isDigit_of_mem_toDigits (by decide) (by decide) digit

/-- The zeros before a number do not count. -/
theorem toNat?_paddedNumber (width number : Nat) :
    (paddedNumber width number).toNat? = some number := by
  have nonempty : paddedNumber width number ≠ "" := by
    intro empty
    have characters := congrArg String.toList empty
    rw [toList_paddedNumber] at characters
    exact Nat.toDigits_ne_nil (List.append_eq_nil_iff.mp characters).2
  have isNat := String.isNat_of_isDigit nonempty fun _ => isDigit_of_mem_paddedNumber
  have kept :
      (paddedNumber width number).toList.filter (· != '_') =
        (paddedNumber width number).toList := by
    apply List.filter_eq_self.mpr
    intro character member
    rw [bne_iff_ne]
    rintro rfl
    exact absurd (isDigit_of_mem_paddedNumber member) (by decide)
  rw [String.toNat?_eq_some_ofDigitChars isNat, kept, toList_paddedNumber, Nat.ofDigitChars_append,
    Nat.ofDigitChars_replicate_zero, Nat.mul_zero, Nat.ofDigitChars_toDigits (by decide) (by decide)]

end Padded

/-! ## Columns -/

/-- Texts are a column of the positions below a count: all of them have as many digits as the
column is wide, and from the first to the last they read as the numbers from zero on. -/
structure IsPositionColumn (count : Nat) (fields : List String) : Prop where
  aligned : ∀ field ∈ fields, field.length = positionWidth count
  digits : ∀ field ∈ fields, ∀ character ∈ field.toList, character.isDigit = true
  inOrder : fields.map String.toNat? = (List.range count).map some

/-- The positions below a count, padded to the width of their column. -/
def positionColumn (count : Nat) : List String :=
  (List.range count).map (paddedNumber (positionWidth count))

theorem isPositionColumn_positionColumn (count : Nat) :
    IsPositionColumn count (positionColumn count) where
  aligned := by
    intro field member
    obtain ⟨position, inside, rfl⟩ := List.mem_map.mp member
    have fits : PositionsFit count (positionWidth count) := (isLeast_positionWidth count).1.2
    exact length_paddedNumber (fits position (List.mem_range.mp inside))
  digits := by
    intro field member character
    obtain ⟨position, _, rfl⟩ := List.mem_map.mp member
    exact isDigit_of_mem_paddedNumber
  inOrder := by
    rw [positionColumn, List.map_map]
    exact List.map_congr_left fun position _ => toNat?_paddedNumber _ position

end BytecodePatch
