import BytecodePatch.Json.Writer
import BytecodePatch.Text.Quoted

/-!
# Values of the wrong shape

Why a JSON value does not decode into what its reader expects, and the decoding of records
whose fields are all texts. Such a record is written as an object with a member for each
field, or as an array of the fields in order.
-/

namespace BytecodePatch.Json

/-- Why a value does not have the expected shape. -/
inductive Mismatch where
  | wrongKind (found : Json) (expected : String)
  | wrongLength (length : Nat) (expected : String)
  | missingField (name : String)
  | duplicateField (name : String)

def describe : Json → String
  | null => "null"
  | bool value => if value then "boolean `true`" else "boolean `false`"
  | number (.integer value) => "integer `" ++ toString value ++ "`"
  | number (.float bits) => "floating point `" ++ (Number.float bits).render ++ "`"
  | string value => "string " ++ Text.quoted value
  | array _ => "sequence"
  | object _ => "map"
  | broken => "nothing"

def Mismatch.message : Mismatch → String
  | wrongKind found expected => "invalid type: " ++ found.describe ++ ", expected " ++ expected
  | wrongLength length expected => "invalid length " ++ toString length ++ ", expected " ++ expected
  | missingField name => "missing field `" ++ name ++ "`"
  | duplicateField name => "duplicate field `" ++ name ++ "`"

def asText : Json → Except Mismatch String
  | string value => .ok value
  | value => .error (.wrongKind value "a string")

def recordTitle (name : String) (fieldCount : Nat) : String :=
  "struct " ++ name ++ " with " ++ toString fieldCount ++
    (if fieldCount = 1 then " element" else " elements")

/-- The texts of the first items, one for each field; `index` fields were read before. -/
def textsInOrder (title : String) (index : Nat) :
    List String → List Json → Except Mismatch (List String)
  | [], _ => .ok []
  | _ :: _, [] => .error (.wrongLength index title)
  | _ :: fields, item :: items => do
      let value ← item.asText
      let values ← textsInOrder title (index + 1) fields items
      return value :: values

def namedTexts (fields : List String) :
    List (String × Json) → Except Mismatch (List (String × String))
  | [] => .ok []
  | (key, value) :: members =>
      if key ∈ fields then do
        let value ← value.asText
        let values ← namedTexts fields members
        return (key, value) :: values
      else namedTexts fields members

/-- The fields of a record of texts, in order, from a value in canonical form. Members
that are no fields are passed over. -/
def asTexts (name : String) (fields : List String) : Json → Except Mismatch (List String)
  | array items => do
      let values ← textsInOrder (recordTitle name fields.length) 0 fields items
      if fields.length < items.length then
        throw (.wrongLength items.length "fewer elements in array")
      return values
  | object members => do
      let values ← namedTexts fields members
      fields.mapM fun field =>
        match values.lookup field with
        | some value => .ok value
        | none => .error (.missingField field)
  | value => .error (.wrongKind value ("struct " ++ name))

end BytecodePatch.Json
