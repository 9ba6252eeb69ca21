import BytecodePatch.Patch.Error
import BytecodePatch.Program.Basic
import BytecodePatch.Program.Signature

/-!
# Lookup of symbols

Symbols are found by the name of their type and the signature of the member. A question has
an answer only if exactly one symbol fits.

Answers are kept: the same question, up to blanks around the signature, is answered again
without a search. A question without an answer is not kept, and its error quotes the
signature as it was asked. Counters tell how many questions were answered from what was
kept, how many were not, and how many modules were searched for them.
-/

namespace BytecodePatch

namespace Lookup

/-- What is asked for. -/
inductive Kind where
  | member | method | field | type
deriving DecidableEq

/-- A question: a kind, the name of a type and the signature of a member. -/
structure Query where
  kind : Kind
  type : String
  member : String
deriving DecidableEq

/-- How many questions were answered from what was kept, how many were not, and how many
modules were searched. -/
structure Counts where
  hits : Nat
  misses : Nat
  moduleScans : Nat
deriving DecidableEq

def fitsMethod (signature : Signature) (method : MethodDecl) : Bool :=
  method.name == signature.name &&
    signature.returnType.all (· == method.returnType) &&
    signature.params.all (· == method.params)

def fitsField (signature : Signature) (field : FieldDecl) : Bool :=
  field.name == signature.name && signature.returnType.all (· == field.type) &&
    signature.params.isNone

def methodsOf (place : TypePlace) (type : TypeDecl) (signature : Signature) : List Symbol :=
  (Program.numbered type.methods).filterMap fun (index, method) =>
    if fitsMethod signature method then some (.method ⟨place, index⟩) else none

def fieldsOf (place : TypePlace) (type : TypeDecl) (signature : Signature) : List Symbol :=
  (Program.numbered type.fields).filterMap fun (index, field) =>
    if fitsField signature field then some (.field ⟨place, index⟩) else none

def membersAt
    (program : Program) (kind : Kind) (signature : Signature) (place : TypePlace) :
    List Symbol :=
  match program.type? place with
  | none => []
  | some type =>
      (if kind = .member ∨ kind = .method then methodsOf place type signature else []) ++
        (if kind = .member ∨ kind = .field then fieldsOf place type signature else [])

def candidates (program : Program) (query : Query) : List Symbol :=
  let places := program.allTypesNamed query.type
  if query.kind = .type then places.map Symbol.type
  else places.flatMap (membersAt program query.kind (Signature.parse query.member))

def search (program : Program) (query : Query) : Except PatchError Symbol :=
  match candidates program query with
  | [] => .error (.symbolNotFound query.type query.member)
  | [symbol] => .ok symbol
  | symbols => .error (.ambiguousSymbol query.type query.member (symbols.map program.nameOf))

def Query.key (query : Query) : Query :=
  { query with member := Text.trimmed query.member }

end Lookup

/-- The program that is searched, the answers that were kept, and the counters. -/
structure Lookup where
  program : Program
  answers : List (Lookup.Query × Symbol)
  counts : Lookup.Counts

namespace Lookup

def ofProgram (program : Program) : Lookup :=
  ⟨program, [], ⟨0, 0, 0⟩⟩

def ask (lookup : Lookup) (query : Query) : Except PatchError Symbol × Lookup :=
  match lookup.answers.lookup query.key with
  | some symbol =>
      (.ok symbol, { lookup with counts.hits := lookup.counts.hits + 1 })
  | none =>
      let counts : Counts :=
        { lookup.counts with
          misses := lookup.counts.misses + 1
          moduleScans := lookup.counts.moduleScans + lookup.program.modules.length }
      match search lookup.program query with
      | .ok symbol =>
          (.ok symbol, { lookup with answers := (query.key, symbol) :: lookup.answers, counts })
      | .error error => (.error error, { lookup with counts })

def methodPlace (query : Query) : Except PatchError Symbol → Except PatchError MemberPlace
  | .ok (.method place) => .ok place
  | .ok _ => .error (.notAMethod (query.type ++ "::" ++ query.member))
  | .error error => .error error

def askMethod
    (lookup : Lookup) (type signature : String) :
    Except PatchError MemberPlace × Lookup :=
  let query : Query := ⟨.method, type, signature⟩
  let (answer, lookup) := lookup.ask query
  (methodPlace query answer, lookup)

end Lookup

end BytecodePatch
