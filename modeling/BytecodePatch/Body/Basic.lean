import BytecodePatch.Code.Basic

/-!
# Method bodies

A body is code together with the types of the arguments and of the local variables that the
code addresses by number. In the body of an instance method the first argument is the
receiver.
-/

namespace BytecodePatch

/-- The type of an argument or of a local variable. -/
inductive ValueType where
  | bool | int32 | int64 | float32 | float64 | string
  /-- A reference type or a structure, by its full name. -/
  | object (name : String)
deriving DecidableEq

def ValueType.text : ValueType → String
  | bool => "bool"
  | int32 => "int32"
  | int64 => "int64"
  | float32 => "float32"
  | float64 => "float64"
  | string => "string"
  | object name => name

/-- A method body. -/
structure Body where
  args : List ValueType
  locals : List ValueType
  code : Code
deriving DecidableEq

def Body.localType? (body : Body) (index : UInt16) : Option ValueType :=
  body.locals[index.toNat]?

def Body.argumentType? (body : Body) (index : UInt16) : Option ValueType :=
  body.args[index.toNat]?

end BytecodePatch
