import BytecodePatch.Json.Basic
import BytecodePatch.Floating.Nearest

/-!
# Numbers in JSON text

A number is read in two steps. The first follows the grammar: a sign, an integer part
without superfluous zeros, a fraction and an exponent. The second gives the value: an
integer if it has neither fraction nor exponent and fits into 64 bits, otherwise a
floating-point number. Its significand takes as many digits as fit into 64 bits, and it is
scaled by a rounded power of ten, so the last bit need not be that of the nearest number.
-/

namespace BytecodePatch.Json

open Floating (Format)

/-- The parts of a number in JSON text. -/
structure Numeral where
  negative : Bool
  whole : List Char
  fraction : Option (List Char)
  exponent : Option Int

def digitValue (character : Char) : Nat :=
  character.toNat - '0'.toNat

def digitsValue (digits : List Char) : Nat :=
  digits.foldl (fun value digit => 10 * value + digitValue digit) 0

def scanDigits? (text : List Char) : Option (List Char × List Char) :=
  match text.span Char.isDigit with
  | ([], _) => none
  | (digits, rest) => some (digits, rest)

/-- The integer part of a number: a single zero, or digits that do not start with one. -/
def scanWhole? (text : List Char) : Option (List Char × List Char) :=
  match scanDigits? text with
  | some ('0' :: _ :: _, _) => none
  | other => other

def scanFraction? : List Char → Option (Option (List Char) × List Char)
  | '.' :: rest => (scanDigits? rest).map fun (digits, rest) => (some digits, rest)
  | rest => some (none, rest)

def scanExponent? (text : List Char) : Option (Option Int × List Char) :=
  let scanSigned (rest : List Char) : Option (Option Int × List Char) :=
    match rest with
    | '-' :: rest =>
        (scanDigits? rest).map fun (digits, rest) => (some (-(digitsValue digits : Int)), rest)
    | '+' :: rest => (scanDigits? rest).map fun (digits, rest) => (some (digitsValue digits : Int), rest)
    | rest => (scanDigits? rest).map fun (digits, rest) => (some (digitsValue digits : Int), rest)
  match text with
  | 'e' :: rest => scanSigned rest
  | 'E' :: rest => scanSigned rest
  | rest => some (none, rest)

def scanNumeral? (text : List Char) : Option (Numeral × List Char) := do
  let (negative, text) := match text with
    | '-' :: rest => (true, rest)
    | rest => (false, rest)
  let (whole, text) ← scanWhole? text
  let (fraction, text) ← scanFraction? text
  let (exponent, text) ← scanExponent? text
  return (⟨negative, whole, fraction, exponent⟩, text)

def integerLimit : Nat := Nat.pow 2 64

/-- A significand extended by digits as long as it fits into 64 bits, and the digits left
over. -/
def extendSignificand (significand : Nat) : List Char → Nat × List Char
  | [] => (significand, [])
  | digit :: digits =>
      let extended := 10 * significand + digitValue digit
      if extended < integerLimit then extendSignificand extended digits
      else (significand, digit :: digits)

def greatestStep : Nat := 308

/-- A floating-point number scaled by a power of ten; nothing if it becomes infinite. -/
def scaled? (bits : Nat) (power : Int) : Option Nat :=
  if power.natAbs ≤ greatestStep then
    let factor := Format.double.nearest (Nat.pow 10 power.natAbs) 1
    let result :=
      if 0 ≤ power then Format.double.product bits factor else Format.double.ratio bits factor
    if result = Format.double.infinityBits then none else some result
  else if bits = 0 then some 0
  else if 0 ≤ power then none
  else
    scaled? (Format.double.ratio bits (Format.double.nearest (Nat.pow 10 greatestStep) 1))
      (power + greatestStep)
termination_by (-power).toNat
decreasing_by simp only [greatestStep] at *; omega

def Numeral.float? (numeral : Numeral) : Option Number := do
  let (significand, restOfWhole) := extendSignificand 0 numeral.whole
  let fraction := numeral.fraction.getD []
  let (significand, restOfFraction) := extendSignificand significand fraction
  let power : Int :=
    (restOfWhole.length : Int) - (fraction.length - restOfFraction.length : Nat) +
      numeral.exponent.getD 0
  let bits ← scaled? (Format.double.nearest significand 1) power
  return .float (UInt64.ofNat (if numeral.negative then bits + Nat.pow 2 63 else bits))

/-- The value of a numeral; nothing if it is too large for a floating-point number. A
negative zero is a floating-point number. -/
def Numeral.value? (numeral : Numeral) : Option Number :=
  let magnitude := digitsValue numeral.whole
  if numeral.fraction.isSome || numeral.exponent.isSome then numeral.float?
  else if numeral.negative then
    if magnitude = 0 ∨ Nat.pow 2 63 < magnitude then numeral.float?
    else some (.integer (-magnitude))
  else if magnitude < integerLimit then some (.integer magnitude)
  else numeral.float?

end BytecodePatch.Json
