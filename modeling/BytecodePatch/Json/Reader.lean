import BytecodePatch.Json.Number

/-!
# Reading JSON text

A reader that never fails as a whole: a text is read into a tree up to the first fault,
which the tree shows. Whoever decodes the tree meets a value of the wrong shape and a
fault in the order in which they stand in the text.

The values of the members of the outermost object that nobody asks for are held to the
grammar alone. Everywhere else a value must also mean something: a number must not be too
large, a surrogate needs its partner, and arrays and objects nest less than `depthLimit`
deep.
-/

namespace BytecodePatch.Json

def depthLimit : Nat := 128

/-- A JSON document: the tree of its text, and whether the text ends with it. -/
structure Document where
  root : Json
  complete : Bool

def skipBlanks (text : List Char) : List Char :=
  text.dropWhile fun character =>
    character == ' ' || character == '\n' || character == '\t' || character == '\r'

def hexValue? (character : Char) : Option Nat :=
  let code := character.toNat
  if character.isDigit then some (code - '0'.toNat)
  else if 'a' ≤ character ∧ character ≤ 'f' then some (code - 'a'.toNat + 10)
  else if 'A' ≤ character ∧ character ≤ 'F' then some (code - 'A'.toNat + 10)
  else none

def codeUnit? (first second third fourth : Char) : Option Nat := do
  let first ← hexValue? first
  let second ← hexValue? second
  let third ← hexValue? third
  let fourth ← hexValue? fourth
  return ((first * 16 + second) * 16 + third) * 16 + fourth

def escaped? : Char → Option Char
  | '"' => some '"'
  | '\\' => some '\\'
  | '/' => some '/'
  | 'b' => some '\x08'
  | 'f' => some '\x0c'
  | 'n' => some '\n'
  | 'r' => some '\r'
  | 't' => some '\t'
  | _ => none

/-- The rest of a quoted text, and what stands after it. A surrogate without its partner
is a fault under `strict`, and is skipped otherwise. -/
def scanText? (strict : Bool) : List Char → Option (List Char × List Char)
  | [] => none
  | '"' :: rest => some ([], rest)
  | '\\' :: 'u' :: first :: second :: third :: fourth :: rest =>
      match codeUnit? first second third fourth with
      | none => none
      | some unit =>
          if unit < 0xD800 ∨ 0xDFFF < unit then
            (scanText? strict rest).map fun (text, rest) => (Char.ofNat unit :: text, rest)
          else if strict then
            match rest with
            | '\\' :: 'u' :: fifth :: sixth :: seventh :: eighth :: rest =>
                match codeUnit? fifth sixth seventh eighth with
                | none => none
                | some partner =>
                    if unit ≤ 0xDBFF ∧ 0xDC00 ≤ partner ∧ partner ≤ 0xDFFF then
                      let code := 0x10000 + (unit - 0xD800) * 0x400 + (partner - 0xDC00)
                      (scanText? strict rest).map fun (text, rest) =>
                        (Char.ofNat code :: text, rest)
                    else none
            | _ => none
          else scanText? strict rest
  | '\\' :: letter :: rest =>
      match escaped? letter with
      | none => none
      | some character =>
          (scanText? strict rest).map fun (text, rest) => (character :: text, rest)
  | character :: rest =>
      if character = '\\' ∨ character.toNat < 0x20 then none
      else (scanText? strict rest).map fun (text, rest) => (character :: text, rest)

abbrev Reading (α : Type) := α × Option (List Char)

def readNumber (strict : Bool) (text : List Char) : Reading Json :=
  match scanNumeral? text with
  | none => (broken, none)
  | some (numeral, rest) =>
      match numeral.value? with
      | some value => (number value, some rest)
      | none => if strict then (broken, none) else (null, some rest)

mutual

/-- The value at the start of a text. `depth` counts the arrays and objects that may still
open, and `strictFor` says which members of an object are held to more than the grammar. -/
def readValue (strict : Bool) (strictFor : String → Bool) :
    (fuel depth : Nat) → List Char → Reading Json
  | 0, _, _ => (broken, none)
  | fuel + 1, depth, text =>
      match skipBlanks text with
      | 'n' :: 'u' :: 'l' :: 'l' :: rest => (null, some rest)
      | 't' :: 'r' :: 'u' :: 'e' :: rest => (bool true, some rest)
      | 'f' :: 'a' :: 'l' :: 's' :: 'e' :: rest => (bool false, some rest)
      | '"' :: rest =>
          match scanText? strict rest with
          | some (characters, rest) => (.string (String.ofList characters), some rest)
          | none => (broken, none)
      | '[' :: rest =>
          if strict ∧ depth ≤ 1 then (broken, none)
          else match skipBlanks rest with
            | ']' :: rest => (array [], some rest)
            | _ =>
                let (items, after) := readItems strict fuel (depth - 1) rest
                (array items, after)
      | '\x7b' :: rest =>
          if strict ∧ depth ≤ 1 then (broken, none)
          else match skipBlanks rest with
            | '\x7d' :: rest => (object [], some rest)
            | _ =>
                let (members, after) := readMembers strict strictFor fuel (depth - 1) rest
                (object members, after)
      | rest => readNumber strict rest

/-- The items of an array up to its end; there is at least one. -/
def readItems (strict : Bool) : (fuel depth : Nat) → List Char → Reading (List Json)
  | 0, _, _ => ([broken], none)
  | fuel + 1, depth, text =>
      match readValue strict (fun _ => strict) fuel depth text with
      | (item, none) => ([item], none)
      | (item, some rest) =>
          match skipBlanks rest with
          | ']' :: rest => ([item], some rest)
          | ',' :: rest =>
              let (items, after) := readItems strict fuel depth rest
              (item :: items, after)
          | _ => ([item, broken], none)

/-- The members of an object up to its end; there is at least one. A fault in a key stands
as a broken member with an empty key. -/
def readMembers (strict : Bool) (strictFor : String → Bool) :
    (fuel depth : Nat) → List Char → Reading (List (String × Json))
  | 0, _, _ => ([("", broken)], none)
  | fuel + 1, depth, text =>
      match skipBlanks text with
      | '"' :: rest =>
          match scanText? strict rest with
          | none => ([("", broken)], none)
          | some (characters, rest) =>
              let key := String.ofList characters
              match skipBlanks rest with
              | ':' :: rest =>
                  let strictHere := strictFor key
                  match readValue strictHere (fun _ => strictHere) fuel depth rest with
                  | (value, none) => ([(key, value)], none)
                  | (value, some rest) =>
                      match skipBlanks rest with
                      | '\x7d' :: rest => ([(key, value)], some rest)
                      | ',' :: rest =>
                          let (members, after) := readMembers strict strictFor fuel depth rest
                          ((key, value) :: members, after)
                      | _ => ([(key, value), ("", broken)], none)
              | _ => ([(key, broken)], none)
      | _ => ([("", broken)], none)

end

/-- The document that a text holds. Of the outermost object, the members whose key is not
`wanted` are only held to the grammar. -/
def read (wanted : String → Bool) (text : String) : Document :=
  let characters := text.toList
  match readValue true wanted (2 * characters.length + 2) depthLimit characters with
  | (root, none) => ⟨root, false⟩
  | (root, some rest) => ⟨root, (skipBlanks rest).isEmpty⟩

end BytecodePatch.Json
