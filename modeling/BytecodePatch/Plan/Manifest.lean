import BytecodePatch.Json.Reader
import BytecodePatch.Json.Shape
import BytecodePatch.Plan.Basic
import BytecodePatch.Wire.Basic

/-!
# Manifests

A manifest lists applications of rules to methods. Its JSON form is an object with the
member `patches`, an array of objects with the members `type`, `method`, `rule` and `arg`.
What is read may lack an argument, which is then null, and may have other members, which are
passed over. An array with the list alone may stand in place of the outer object.
-/

namespace BytecodePatch

/-- A list of applications with their targets. -/
structure Manifest where
  entries : List (MethodKey × Application)

/-- Why a manifest cannot be had. -/
inductive ManifestError where
  | notJson
  | wrongShape (mismatch : Json.Mismatch)
  /-- No text could be read from the file. -/
  | unreadable (path : String)

/-- The wording of an error. What the grammar of JSON or the system has to say is not part
of it. -/
def ManifestError.message : ManifestError → String
  | notJson => "invalid manifest: "
  | wrongShape mismatch => "invalid manifest: " ++ mismatch.message
  | unreadable path => "failed to read manifest `" ++ path ++ "`: "

namespace Manifest

/-- A value of another kind than was expected; a broken one is no value at all. -/
def unexpected (found : Json) (expected : String) : ManifestError :=
  match found with
  | .broken => .notJson
  | found => .wrongShape (.wrongKind found expected)

def decodeText : Json → Except ManifestError String
  | .string value => .ok value
  | value => .error (unexpected value "a string")

def required {α : Type} (name : String) : Option α → Except ManifestError α
  | some value => .ok value
  | none => .error (.wrongShape (.missingField name))

def checkNew {α : Type} (name : String) : Option α → Except ManifestError Unit
  | none => .ok ()
  | some _ => .error (.wrongShape (.duplicateField name))

def checkIntact (value : Json) : Except ManifestError Unit :=
  if value.isIntact then .ok () else .error .notJson

/-- The fields of an entry found so far, and the members that are none of them. -/
structure EntryFields where
  rule : Option String
  argument : Option Json
  others : List (String × Json)

def EntryFields.take (fields : EntryFields) (key : String) (value : Json) :
    Except ManifestError EntryFields := do
  if key = "rule" then
    checkNew key fields.rule
    return { fields with rule := some (← decodeText value) }
  else if key = "arg" then
    checkNew key fields.argument
    checkIntact value
    return { fields with argument := some value.canonical }
  else
    checkIntact value
    return { fields with others := fields.others ++ [(key, value)] }

def takeTarget (found : Option String × Option String) (member : String × Json) :
    Except ManifestError (Option String × Option String) := do
  let (key, value) := member
  if key = "type" then
    checkNew key found.1
    return (some (← decodeText value), found.2)
  else if key = "method" then
    checkNew key found.2
    return (found.1, some (← decodeText value))
  else return found

def decodeTarget (members : List (String × Json)) : Except ManifestError MethodKey := do
  let (type, method) ← members.foldlM takeTarget (none, none)
  let type ← required "type" type
  let method ← required "method" method
  return ⟨type, method⟩

/-- An entry. The rule is looked for first, then the target. -/
def decodeEntry : Json → Except ManifestError (MethodKey × Application)
  | .object members => do
      let fields ← members.foldlM (fun fields (key, value) => EntryFields.take fields key value)
        ⟨none, none, []⟩
      let rule ← required "rule" fields.rule
      let target ← decodeTarget fields.others
      return (target, ⟨rule, fields.argument.getD .null⟩)
  | value => .error (unexpected value "struct ManifestEntry")

def decodeEntries : Json → Except ManifestError (List (MethodKey × Application))
  | .array items => items.mapM decodeEntry
  | value => .error (unexpected value "a sequence")

def takePatches (found : Option (List (MethodKey × Application))) (member : String × Json) :
    Except ManifestError (Option (List (MethodKey × Application))) := do
  let (key, value) := member
  if key = "patches" then
    checkNew key found
    return some (← decodeEntries value)
  else
    checkIntact value
    return found

def ofJson : Json → Except ManifestError Manifest
  | .object members => do
      let found ← members.foldlM takePatches none
      return ⟨← required "patches" found⟩
  | .array [] => .error (.wrongShape (.wrongLength 0 (Json.recordTitle "Manifest" 1)))
  | .array (value :: others) => do
      let entries ← decodeEntries value
      if others.isEmpty then return ⟨entries⟩ else throw .notJson
  | value => .error (unexpected value "struct Manifest")

def entryToJson (entry : MethodKey × Application) : Json :=
  .object [("type", .string entry.1.type), ("method", .string entry.1.method),
    ("rule", .string entry.2.rule), ("arg", entry.2.argument)]

def toJson (manifest : Manifest) : Json :=
  .object [("patches", .array (manifest.entries.map entryToJson))]

/-- The manifest in a JSON text. A value of the wrong shape is reported if it stands before
any fault of the text. -/
def ofText (text : String) : Except ManifestError Manifest := do
  let document := Json.read (· == "patches") text
  let manifest ← ofJson document.root
  if document.complete then return manifest else throw .notJson

def ofFile (path : String) (content : Option (List UInt8)) : Except ManifestError Manifest :=
  match content.bind Wire.textOfBytes? with
  | some text => ofText text
  | none => .error (.unreadable path)

def toPlan (manifest : Manifest) : Except Clash Plan :=
  Plan.ofEntries manifest.entries

end Manifest

end BytecodePatch
