import BytecodePatch.Body.Basic
import BytecodePatch.Json.Basic

/-!
# Programs

A program is the loaded modules with their types, and the types with their fields and
methods. Symbols are looked up in it by place, and patched bodies are put back into it.
-/

namespace BytecodePatch

/-- A request on a method to run a rule on it. -/
structure RuleTag where
  rule : String
  argument : Json

/-- How far the patching of a method has come. A method whose rules have been applied is
staged and not yet visible in a program. -/
inductive PatchState where
  | unpatched | rulesApplied | committed
deriving DecidableEq

/-- A field and the full name of its type. -/
structure FieldDecl where
  name : String
  type : String

/-- A method. Return type and parameters are full names of types. -/
structure MethodDecl where
  name : String
  returnType : String
  params : List String
  body : Option Body
  tags : List RuleTag
  state : PatchState

namespace MethodDecl

def paramSignature (method : MethodDecl) : String :=
  method.name ++ "(" ++ String.intercalate "," method.params ++ ")"

def signature (method : MethodDecl) : String :=
  method.returnType ++ " " ++ method.paramSignature

end MethodDecl

/-- A type with its members in order of declaration. -/
structure TypeDecl where
  name : String
  fields : List FieldDecl
  methods : List MethodDecl

/-- A module with its types in order of declaration. -/
structure Module where
  name : String
  types : List TypeDecl

/-- The loaded modules in order of loading. -/
structure Program where
  modules : List Module

namespace Program

def numbered {α : Type} (items : List α) : List (UInt32 × α) :=
  items.zipIdx.map fun (item, index) => (UInt32.ofNat index, item)

def module? (program : Program) (number : UInt32) : Option Module :=
  program.modules[number.toNat]?

def type? (program : Program) (place : TypePlace) : Option TypeDecl := do
  let module ← program.module? place.module
  module.types[place.index.toNat]?

def field? (program : Program) (place : MemberPlace) : Option FieldDecl := do
  let type ← program.type? place.owner
  type.fields[place.index.toNat]?

def method? (program : Program) (place : MemberPlace) : Option MethodDecl := do
  let type ← program.type? place.owner
  type.methods[place.index.toNat]?

def typesNamed (program : Program) (number : UInt32) (name : String) : List TypePlace :=
  match program.module? number with
  | none => []
  | some module =>
      (numbered module.types).filterMap fun (index, type) =>
        if type.name = name then some ⟨number, index⟩ else none

def allTypesNamed (program : Program) (name : String) : List TypePlace :=
  (numbered program.modules).flatMap fun (number, _) => program.typesNamed number name

/-- Every method with its place and its type, in order of module, type and declaration. -/
def methods (program : Program) : List (MemberPlace × TypeDecl × MethodDecl) :=
  (numbered program.modules).flatMap fun (number, module) =>
    (numbered module.types).flatMap fun (typeIndex, type) =>
      (numbered type.methods).map fun (index, method) =>
        (⟨⟨number, typeIndex⟩, index⟩, type, method)

def modifyMethod
    (program : Program) (place : MemberPlace) (change : MethodDecl → MethodDecl) :
    Program :=
  { program with
    modules := program.modules.modify place.owner.module.toNat fun module =>
      { module with
        types := module.types.modify place.owner.index.toNat fun type =>
          { type with methods := type.methods.modify place.index.toNat change } } }

/-- The name of a symbol: of a type, of a field after its type, of a method with its
parameter list after its type. -/
def symbolName? (program : Program) : Symbol → Option String
  | .type place => do
      let type ← program.type? place
      return type.name
  | .field place => do
      let type ← program.type? place.owner
      let field ← program.field? place
      return type.name ++ "::" ++ field.name
  | .method place => do
      let type ← program.type? place.owner
      let method ← program.method? place
      return type.name ++ "::" ++ method.paramSignature

def nameOf (program : Program) (symbol : Symbol) : String :=
  (program.symbolName? symbol).getD symbol.text

end Program

end BytecodePatch
