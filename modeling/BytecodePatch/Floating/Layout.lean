import BytecodePatch.Floating.Shortest

/-!
# Floating-point numbers as text

A number is written with the digits of its shortest decimal, in positional notation with
at least one digit on each side of the point, or with an exponent when it is very large or
very small. A layout holds the choices that differ from one kind of text to another.
-/

namespace BytecodePatch.Floating

/-- The choices of a text format: between which powers of ten positional notation is
used, which of two equally near decimals is written, and whether a positive exponent
bears a plus sign. A number belongs to power `p` when it is below ten to the `p` and not
below ten to the `p - 1`. -/
structure Layout where
  leastPositional : Int
  greatestPositional : Int
  tie : Tie
  plusSign : Bool

/-- Digits in positional notation, the point standing `point` places after their start. -/
def positional (digits : List Char) (point : Int) : List Char :=
  if point ≤ 0 then
    ['0', '.'] ++ List.replicate (-point).toNat '0' ++ digits
  else
    let places := point.toNat
    if digits.length ≤ places then
      digits ++ List.replicate (places - digits.length) '0' ++ ['.', '0']
    else digits.take places ++ ['.'] ++ digits.drop places

def scientific (plusSign : Bool) (digits : List Char) (exponent : Int) : List Char :=
  let mantissa := match digits with
    | [] => []
    | [single] => [single]
    | first :: rest => first :: '.' :: rest
  let plus := if plusSign ∧ 0 < exponent then ['+'] else []
  mantissa ++ ['e'] ++ plus ++ (toString exponent).toList

def Layout.render (layout : Layout) (format : Format) (bits : Nat) : String :=
  match format.value bits with
  | .notANumber => "NaN"
  | .infinite negative => if negative then "-inf" else "inf"
  | .finite negative significand exponent =>
      let sign := if negative then "-" else ""
      if significand = 0 then sign ++ "0.0"
      else
        let (number, power) := format.shortest layout.tie significand exponent
        let digits := Nat.toDigits 10 number
        let point := power + digits.length
        let body :=
          if layout.leastPositional ≤ point ∧ point ≤ layout.greatestPositional then
            positional digits point
          else scientific layout.plusSign digits (point - 1)
        sign ++ String.ofList body

end BytecodePatch.Floating
