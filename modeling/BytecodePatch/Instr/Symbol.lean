/-!
# Symbols

A symbol names a type, a field or a method by its place: the number of the module, of the
type within it, and of the member within the type. Fields and methods are numbered
separately. A symbol need not exist in any loaded module.
-/

namespace BytecodePatch

/-- The place of a type. -/
structure TypePlace where
  module : UInt32
  index : UInt32
deriving DecidableEq

/-- The place of a field among the fields, or of a method among the methods, of a type. -/
structure MemberPlace where
  owner : TypePlace
  index : UInt32
deriving DecidableEq

/-- A reference to a type, a field or a method. -/
inductive Symbol where
  | type (place : TypePlace)
  | field (place : MemberPlace)
  | method (place : MemberPlace)
deriving DecidableEq

def TypePlace.text (place : TypePlace) : String :=
  toString place.module ++ "." ++ toString place.index

def MemberPlace.text (place : MemberPlace) : String :=
  place.owner.text ++ "." ++ toString place.index

namespace Symbol

def text : Symbol → String
  | type place => "type#" ++ place.text
  | field place => "field#" ++ place.text
  | method place => "method#" ++ place.text

def method? : Symbol → Option MemberPlace
  | method place => some place
  | _ => none

def field? : Symbol → Option MemberPlace
  | field place => some place
  | _ => none

def declaringType : Symbol → TypePlace
  | type place => place
  | field place => place.owner
  | method place => place.owner

end Symbol

end BytecodePatch
