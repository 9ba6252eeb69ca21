import BytecodePatch.Floating.Layout
import BytecodePatch.Text.Quoted

/-!
# Literals

The immediate values of instructions. Floating-point numbers are their bits.
-/

namespace BytecodePatch

/-- An immediate value. -/
inductive Literal where
  | int32 (value : Int32)
  | int64 (value : Int64)
  | float32 (bits : UInt32)
  | float64 (bits : UInt64)
  | string (value : String)
deriving DecidableEq

namespace Literal

/-- Floating-point literals in text: positional from a ten-thousandth up to ten to the
sixteenth, an exponent without a plus sign elsewhere, and of two equally near decimals the
greater one. -/
def floatLayout : Floating.Layout := ⟨-3, 16, .upward, false⟩

/-- A literal in text. Long integers and short floating-point numbers bear a letter. -/
def text : Literal → String
  | int32 value => toString value.toInt
  | int64 value => toString value.toInt ++ "L"
  | float32 bits => floatLayout.render .single bits.toNat ++ "f"
  | float64 bits => floatLayout.render .double bits.toNat
  | string value => Text.quoted value

def agrees : Literal → Literal → Bool
  | int32 left, int32 right => left == right
  | int64 left, int64 right => left == right
  | float32 left, float32 right => Floating.Format.single.agree left.toNat right.toNat
  | float64 left, float64 right => Floating.Format.double.agree left.toNat right.toNat
  | string left, string right => left == right
  | _, _ => false

end Literal

end BytecodePatch
