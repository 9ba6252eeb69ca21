/-!
# Bytes

The building blocks of the byte image: natural numbers seven bits to a byte, fixed-width
numbers with the lowest byte first, lists behind their length and texts behind their
length in UTF-8. A reader takes bytes from the front of a list and leaves the rest; what
it does with too few bytes, or with bytes that mean nothing, is one of four faults.
-/

namespace BytecodePatch.Wire

/-- Why bytes do not decode. -/
inductive Fault where
  /-- The bytes end inside a value. -/
  | endOfBytes
  /-- A number goes on past the bytes that its width allows, or does not fit it. -/
  | unterminatedNumber
  /-- The bytes of a text are not UTF-8. -/
  | invalidText
  /-- A number that says which of several forms follows names none of them. -/
  | unknownForm
deriving DecidableEq

def Fault.message : Fault → String
  | endOfBytes => "Hit the end of buffer, expected more data"
  | unterminatedNumber =>
      "Found a varint that didn't terminate. Is the usize too big for this platform?"
  | invalidText => "Tried to parse invalid utf-8"
  | unknownForm => "Serde Deserialization Error"

abbrev Reader (α : Type) := StateT (List UInt8) (Except Fault) α

/-- A natural number, the lowest seven bits first. Every byte but the last has its highest
bit set. -/
def writeNat (number : Nat) : List UInt8 :=
  if number < 128 then [UInt8.ofNat number]
  else UInt8.ofNat (number % 128 + 128) :: writeNat (number / 128)
termination_by number

/-- The natural number at the front of the bytes, which must fit into `width` bits. Zeros
above its highest bit are allowed as far as the width reaches. -/
def takeNat (width : Nat) : List UInt8 → Except Fault (Nat × List UInt8)
  | [] => .error .endOfBytes
  | byte :: rest =>
      if byte.toNat < 128 then
        if width ≤ 7 ∧ Nat.pow 2 width ≤ byte.toNat then .error .unterminatedNumber
        else .ok (byte.toNat, rest)
      else if width ≤ 7 then .error .unterminatedNumber
      else
        match takeNat (width - 7) rest with
        | .ok (high, rest) => .ok (byte.toNat - 128 + 128 * high, rest)
        | .error fault => .error fault

def readNat (width : Nat) : Reader Nat :=
  fun bytes => takeNat width bytes

def readForm : Reader Nat :=
  readNat 32

def readWord : Reader UInt32 := do
  return UInt32.ofNat (← readNat 32)

def readHalf : Reader UInt16 := do
  return UInt16.ofNat (← readNat 16)

def lengthWidth : Nat := 64

def writeFixed : (count number : Nat) → List UInt8
  | 0, _ => []
  | count + 1, number => UInt8.ofNat (number % 256) :: writeFixed count (number / 256)

def readByte : Reader UInt8
  | [] => .error .endOfBytes
  | byte :: rest => .ok (byte, rest)

def readFixed : (count : Nat) → Reader Nat
  | 0 => pure 0
  | count + 1 => do
      let low ← readByte
      let high ← readFixed count
      return low.toNat + 256 * high

def zigzag (value : Int) : Nat :=
  if 0 ≤ value then 2 * value.toNat else 2 * (-value).toNat - 1

def ofZigzag (number : Nat) : Int :=
  if number % 2 = 0 then (number / 2 : Nat) else -((number / 2 + 1 : Nat) : Int)

def readMany {α : Type} (read : Reader α) : (count : Nat) → Reader (List α)
  | 0 => pure []
  | count + 1 => do
      let first ← read
      let others ← readMany read count
      return first :: others

def writeList {α : Type} (write : α → List UInt8) (values : List α) : List UInt8 :=
  writeNat values.length ++ values.flatMap write

def readList {α : Type} (read : Reader α) : Reader (List α) := do
  let count ← readNat lengthWidth
  readMany read count

def writeText (text : String) : List UInt8 :=
  let bytes := text.toByteArray.data.toList
  writeNat bytes.length ++ bytes

def readBytes (count : Nat) : Reader (List UInt8) := fun bytes =>
  if bytes.length < count then .error .endOfBytes
  else .ok (bytes.take count, bytes.drop count)

def textOfBytes? (bytes : List UInt8) : Option String :=
  String.fromUTF8? ⟨bytes.toArray⟩

def readText : Reader String := do
  let count ← readNat lengthWidth
  let bytes ← readBytes count
  match textOfBytes? bytes with
  | some text => return text
  | none => throw .invalidText

end BytecodePatch.Wire
