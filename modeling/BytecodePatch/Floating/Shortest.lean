import BytecodePatch.Floating.Format

/-!
# Shortest decimals

The decimal with the fewest digits among those that read back as a given floating-point
number, and the nearest to the number among those. A number owns the interval that ends
halfway to its neighbours; the ends belong to it when its significand is even. For one,
two, three and more digits, the two neighbours of the number on the grid of decimals with
so many digits are tried against the interval, and the first grid with a hit decides.
-/

namespace BytecodePatch.Floating

/-- Which of two equally near decimals is taken. -/
inductive Tie where
  | upward
  | toEven
deriving DecidableEq

/-- A positive number between the ends of its interval, all over one denominator. -/
structure Interval where
  lower : Nat
  number : Nat
  upper : Nat
  denominator : Nat
  closed : Bool

/-- The interval of the number with this significand and exponent. The gap below a power
of two is half the gap above it, except at the least exponent. -/
def Format.interval
    (format : Format) (significand : Nat) (exponent : Int) :
    Interval :=
  let narrow :=
    significand == Nat.pow 2 format.fractionWidth && decide (format.leastExponent < exponent)
  let scale := Nat.pow 2 (exponent - 2).toNat
  { lower := (4 * significand - if narrow then 1 else 2) * scale
    number := 4 * significand * scale
    upper := (4 * significand + 2) * scale
    denominator := Nat.pow 2 (2 - exponent).toNat
    closed := significand % 2 == 0 }

namespace Interval

def inUnits (interval : Interval) (power : Int) : Interval :=
  let scale := Nat.pow 10 (-power).toNat
  { interval with
    lower := interval.lower * scale
    number := interval.number * scale
    upper := interval.upper * scale
    denominator := interval.denominator * Nat.pow 10 power.toNat }

def holds (interval : Interval) (units : Nat) : Bool :=
  let point := units * interval.denominator
  if interval.closed then decide (interval.lower ≤ point ∧ point ≤ interval.upper)
  else decide (interval.lower < point ∧ point < interval.upper)

/-- The neighbour of the number on the grid of whole units that lies in the interval;
the nearer one if both do. -/
def gridPoint? (interval : Interval) (tie : Tie) : Option Nat :=
  let floor := interval.number / interval.denominator
  match interval.holds floor, interval.holds (floor + 1) with
  | false, false => none
  | true, false => some floor
  | false, true => some (floor + 1)
  | true, true =>
      let twice := 2 * (interval.number % interval.denominator)
      if twice < interval.denominator then some floor
      else if interval.denominator < twice then some (floor + 1)
      else if tie = .toEven ∧ floor % 2 = 0 then some floor
      else some (floor + 1)

def magnitude (interval : Interval) : Int :=
  let guess :=
    ((Nat.toDigits 10 interval.number).length : Int) -
      (Nat.toDigits 10 interval.denominator).length
  let measured := interval.inUnits guess
  if measured.number < measured.denominator then guess else guess + 1

end Interval

def withoutTrailingZeros (digits : Nat) (power : Int) : Nat × Int :=
  if digits = 0 then (0, power)
  else if digits % 10 = 0 then withoutTrailingZeros (digits / 10) (power + 1)
  else (digits, power)
termination_by digits

/-- The digits and the power of ten of the shortest decimal of a positive number.
Seventeen digits tell any two numbers of 64 bits apart, so one of the grids has a hit. -/
def Format.shortest
    (format : Format) (tie : Tie) (significand : Nat) (exponent : Int) :
    Nat × Int :=
  let interval := format.interval significand exponent
  let magnitude := interval.magnitude
  let hit? := (List.range' 1 17).findSome? fun (count : Nat) =>
    let power := magnitude - count
    ((interval.inUnits power).gridPoint? tie).map fun digits => (digits, power)
  match hit? with
  | some (digits, power) => withoutTrailingZeros digits power
  | none => (0, 0)

end BytecodePatch.Floating
