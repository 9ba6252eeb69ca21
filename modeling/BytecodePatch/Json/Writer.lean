import BytecodePatch.Json.Basic
import BytecodePatch.Floating.Layout

/-!
# Writing JSON text

The text of a value, without blanks. In quoted text a backslash stands before a double
quote and before a backslash, and control characters stand as four hexadecimal digits.
-/

namespace BytecodePatch.Json

/-- Floating-point numbers in JSON text: positional from a hundred-thousandth up to ten to
the sixteenth, a signed exponent elsewhere, and of two equally near decimals the even
one. -/
def floatLayout : Floating.Layout := ⟨-4, 16, .toEven, true⟩

def Number.render : Number → String
  | .integer value => toString value
  | .float bits => floatLayout.render .double bits.toNat

def writtenCharacter (character : Char) : List Char :=
  if character = '"' then ['\\', '"']
  else if character = '\\' then ['\\', '\\']
  else if character.toNat < 0x20 then
    ['\\', 'u', '0', '0', Nat.digitChar (character.toNat / 16), Nat.digitChar (character.toNat % 16)]
  else [character]

def renderText (text : String) : String :=
  String.ofList ('"' :: text.toList.flatMap writtenCharacter ++ ['"'])

mutual

def render : Json → String
  | null => "null"
  | bool value => if value then "true" else "false"
  | number value => value.render
  | string value => renderText value
  | array items => "[" ++ String.intercalate "," (renderItems items) ++ "]"
  | object members => "\x7b" ++ String.intercalate "," (renderMembers members) ++ "\x7d"
  | broken => "null"

def renderItems : List Json → List String
  | [] => []
  | item :: items => item.render :: renderItems items

def renderMembers : List (String × Json) → List String
  | [] => []
  | (key, value) :: members => (renderText key ++ ":" ++ value.render) :: renderMembers members

end

end BytecodePatch.Json
