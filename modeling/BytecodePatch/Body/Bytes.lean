import BytecodePatch.Body.Image

/-!
# Images as bytes

The byte form of an image: its lists one after another, each behind its length, and each
value behind the number of its form where its type has several. Bytes after the image are
not looked at. Decoded images are validated.
-/

namespace BytecodePatch

open Wire

namespace ValueType

def bytes : ValueType → List UInt8
  | bool => writeNat 0
  | int32 => writeNat 1
  | int64 => writeNat 2
  | float32 => writeNat 3
  | float64 => writeNat 4
  | string => writeNat 5
  | object name => writeNat 6 ++ writeText name

def read : Reader ValueType := do
  match ← readForm with
  | 0 => return bool
  | 1 => return int32
  | 2 => return int64
  | 3 => return float32
  | 4 => return float64
  | 5 => return string
  | 6 => return object (← readText)
  | _ => throw .unknownForm

end ValueType

namespace Literal

def bytes : Literal → List UInt8
  | int32 value => writeNat 0 ++ writeNat (zigzag value.toInt)
  | int64 value => writeNat 1 ++ writeNat (zigzag value.toInt)
  | float32 bits => writeNat 2 ++ writeFixed 4 bits.toNat
  | float64 bits => writeNat 3 ++ writeFixed 8 bits.toNat
  | string value => writeNat 4 ++ writeText value

def read : Reader Literal := do
  match ← readForm with
  | 0 => return int32 (Int32.ofInt (ofZigzag (← readNat 32)))
  | 1 => return int64 (Int64.ofInt (ofZigzag (← readNat 64)))
  | 2 => return float32 (UInt32.ofNat (← readFixed 4))
  | 3 => return float64 (UInt64.ofNat (← readFixed 8))
  | 4 => return string (← readText)
  | _ => throw .unknownForm

end Literal

namespace TypePlace

def bytes (place : TypePlace) : List UInt8 :=
  writeNat place.module.toNat ++ writeNat place.index.toNat

def read : Reader TypePlace := do
  let module ← readWord
  let index ← readWord
  return ⟨module, index⟩

end TypePlace

namespace MemberPlace

def bytes (place : MemberPlace) : List UInt8 :=
  place.owner.bytes ++ writeNat place.index.toNat

def read : Reader MemberPlace := do
  let owner ← TypePlace.read
  let index ← readWord
  return ⟨owner, index⟩

end MemberPlace

namespace Symbol

def bytes : Symbol → List UInt8
  | type place => writeNat 0 ++ place.bytes
  | field place => writeNat 1 ++ place.bytes
  | method place => writeNat 2 ++ place.bytes

def read : Reader Symbol := do
  match ← readForm with
  | 0 => return type (← TypePlace.read)
  | 1 => return field (← MemberPlace.read)
  | 2 => return method (← MemberPlace.read)
  | _ => throw .unknownForm

end Symbol

namespace Operand

def bytes : Operand UInt32 → List UInt8
  | none => writeNat 0
  | literal value => writeNat 1 ++ value.bytes
  | symbol value => writeNat 2 ++ value.bytes
  | localSlot index => writeNat 3 ++ writeNat index.toNat
  | argument index => writeNat 4 ++ writeNat index.toNat
  | target ref => writeNat 5 ++ writeNat ref.toNat
  | targets refs => writeNat 6 ++ writeList (fun ref => writeNat ref.toNat) refs

def read : Reader (Operand UInt32) := do
  match ← readForm with
  | 0 => return none
  | 1 => return literal (← Literal.read)
  | 2 => return symbol (← Symbol.read)
  | 3 => return localSlot (← readHalf)
  | 4 => return argument (← readHalf)
  | 5 => return target (← readWord)
  | 6 => return targets (← readList readWord)
  | _ => throw .unknownForm

end Operand

namespace Opcode

def bytes (opcode : Opcode) : List UInt8 :=
  writeNat opcode.index

def read : Reader Opcode := do
  match ofIndex? (← readForm) with
  | some opcode => return opcode
  | none => throw .unknownForm

end Opcode

namespace Instr

def bytes (instr : Instr UInt32) : List UInt8 :=
  instr.opcode.bytes ++ instr.operand.bytes

def read : Reader (Instr UInt32) := do
  let opcode ← Opcode.read
  let operand ← Operand.read
  return ⟨opcode, operand⟩

end Instr

namespace Image

def bytes (image : Image) : List UInt8 :=
  writeList ValueType.bytes image.args ++ writeList ValueType.bytes image.locals ++
    writeList Instr.bytes image.instrs

def read : Reader Image := do
  let args ← readList ValueType.read
  let locals ← readList ValueType.read
  let instrs ← readList Instr.read
  return ⟨args, locals, instrs⟩

def ofBytes (bytes : List UInt8) : Except Rejection Image :=
  match read.run bytes with
  | .error fault => .error (.undecodable fault)
  | .ok (image, _) => do
      image.validate
      return image

end Image

end BytecodePatch
