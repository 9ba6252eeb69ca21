/-!
# JSON values

A JSON value as a tree. The members of an object keep the order and the repetitions of
the text they were read from; a value that is kept as an argument is put into canonical
form, where each key stands once, under its last value, in order of the keys. A text that
breaks the grammar is read as the tree of all that stands before the fault, with a mark
where it breaks.
-/

namespace BytecodePatch

/-- A JSON number: an integer, or the bits of a floating-point number of 64 bits. -/
inductive Json.Number where
  | integer (value : Int)
  | float (bits : UInt64)
deriving DecidableEq

/-- A JSON value. `broken` marks the place where a text breaks the grammar; nothing after
it was read. -/
inductive Json where
  | null
  | bool (value : Bool)
  | number (value : Json.Number)
  | string (value : String)
  | array (items : List Json)
  | object (members : List (String × Json))
  | broken

namespace Json

instance : Inhabited Json := ⟨null⟩

def isNull : Json → Bool
  | null => true
  | _ => false

mutual

def isIntact : Json → Bool
  | array items => areIntact items
  | object members => haveIntactValues members
  | broken => false
  | _ => true

def areIntact : List Json → Bool
  | [] => true
  | item :: items => item.isIntact && areIntact items

def haveIntactValues : List (String × Json) → Bool
  | [] => true
  | (_, value) :: members => value.isIntact && haveIntactValues members

end

def setMember (key : String) (value : Json) : List (String × Json) → List (String × Json)
  | [] => [(key, value)]
  | (otherKey, otherValue) :: members =>
      if key < otherKey then (key, value) :: (otherKey, otherValue) :: members
      else if key = otherKey then (key, value) :: members
      else (otherKey, otherValue) :: setMember key value members

def sortedMembers (members : List (String × Json)) : List (String × Json) :=
  members.foldl (fun sorted (key, value) => setMember key value sorted) []

mutual

def canonical : Json → Json
  | array items => array (canonicalItems items)
  | object members => object (sortedMembers (canonicalMembers members))
  | value => value

def canonicalItems : List Json → List Json
  | [] => []
  | item :: items => item.canonical :: canonicalItems items

def canonicalMembers : List (String × Json) → List (String × Json)
  | [] => []
  | (key, value) :: members => (key, value.canonical) :: canonicalMembers members

end

end Json

end BytecodePatch
