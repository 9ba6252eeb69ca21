import BytecodePatch.Floating.Format

/-!
# The nearest floating-point number

The number of a format that is nearest to a quotient of natural numbers; a quotient
halfway between two numbers goes to the one with an even significand. Products and
quotients of finite numbers are rounded through it.
-/

namespace BytecodePatch.Floating

def roundedQuotient (numerator denominator : Nat) : Nat :=
  let floor := numerator / denominator
  let twice := 2 * (numerator % denominator)
  if twice < denominator then floor
  else if denominator < twice then floor + 1
  else if floor % 2 = 0 then floor else floor + 1

def dividedByPower (numerator denominator : Nat) (exponent : Int) : Nat × Nat :=
  if 0 ≤ exponent then (numerator, denominator * Nat.pow 2 exponent.toNat)
  else (numerator * Nat.pow 2 (-exponent).toNat, denominator)

namespace Format

/-- The exponent that the nearest number to a quotient has before rounding: the one
that leaves as many digits as a significand holds, or the least of the format. -/
def exponentOf (format : Format) (numerator denominator : Nat) : Int :=
  let guess := (Nat.log2 numerator : Int) - Nat.log2 denominator - format.fractionWidth
  let (above, below) := dividedByPower numerator denominator guess
  let exponent := if above < below * Nat.pow 2 format.fractionWidth then guess - 1 else guess
  max exponent format.leastExponent

/-- The bits of the nearest number to a quotient, or of infinity when the quotient is
too large for the format. -/
def nearest (format : Format) (numerator denominator : Nat) : Nat :=
  if numerator = 0 then 0
  else
    let exponent := format.exponentOf numerator denominator
    let (above, below) := dividedByPower numerator denominator exponent
    let significand := roundedQuotient above below
    let bits :=
      (exponent - format.leastExponent).toNat * Nat.pow 2 format.fractionWidth + significand
    min bits (format.topField * Nat.pow 2 format.fractionWidth)

def infinityBits (format : Format) : Nat :=
  format.topField * Nat.pow 2 format.fractionWidth

def quotientOf (format : Format) (bits : Nat) : Nat × Nat :=
  match format.value bits with
  | .finite _ significand exponent => dividedByPower significand 1 (-exponent)
  | _ => (0, 1)

def product (format : Format) (left right : Nat) : Nat :=
  let (leftAbove, leftBelow) := format.quotientOf left
  let (rightAbove, rightBelow) := format.quotientOf right
  format.nearest (leftAbove * rightAbove) (leftBelow * rightBelow)

def ratio (format : Format) (left right : Nat) : Nat :=
  let (leftAbove, leftBelow) := format.quotientOf left
  let (rightAbove, rightBelow) := format.quotientOf right
  format.nearest (leftAbove * rightBelow) (leftBelow * rightAbove)

end Format

end BytecodePatch.Floating
