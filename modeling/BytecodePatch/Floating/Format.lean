/-!
# Binary floating-point formats

A floating-point number is kept as its bits, so that every payload of a number that is
no number survives. A format says how many of the bits are fraction and how many are
exponent; from it come the meaning of the bits and the comparison that treats the two
zeros as equal and nothing as equal to a number that is no number.
-/

namespace BytecodePatch.Floating

/-- The widths of the fraction and of the exponent of a binary format. -/
structure Format where
  fractionWidth : Nat
  exponentWidth : Nat
deriving DecidableEq

def Format.single : Format := ⟨23, 8⟩

def Format.double : Format := ⟨52, 11⟩

/-- What the bits of a floating-point number mean. A finite number is its significand
times two to the power of its exponent. -/
inductive Value where
  | notANumber
  | infinite (negative : Bool)
  | finite (negative : Bool) (significand : Nat) (exponent : Int)
deriving DecidableEq

namespace Format

def leastExponent (format : Format) : Int :=
  2 - (Nat.pow 2 (format.exponentWidth - 1) : Nat) - (format.fractionWidth : Int)

def topField (format : Format) : Nat :=
  Nat.pow 2 format.exponentWidth - 1

def value (format : Format) (bits : Nat) : Value :=
  let fraction := bits % Nat.pow 2 format.fractionWidth
  let field := bits / Nat.pow 2 format.fractionWidth % Nat.pow 2 format.exponentWidth
  let negative := bits / Nat.pow 2 (format.fractionWidth + format.exponentWidth) % 2 == 1
  if field = format.topField then
    if fraction = 0 then .infinite negative else .notANumber
  else if field = 0 then .finite negative fraction format.leastExponent
  else
    .finite negative (Nat.pow 2 format.fractionWidth + fraction)
      (format.leastExponent + field - 1)

def agree (format : Format) (left right : Nat) : Bool :=
  match format.value left, format.value right with
  | .notANumber, _ => false
  | _, .notANumber => false
  | .finite _ 0 _, .finite _ 0 _ => true
  | leftValue, rightValue => leftValue == rightValue

end Format

end BytecodePatch.Floating
