import BytecodePatch.Text.Blank

/-!
# Member signatures

A member is asked for by a text of the form `Ret name(P1,P2)`, in which the return type and
the parameter list may be left out. The return type ends at the last space before the
parameters. Parameters are separated by commas, but not by those within angle or square
brackets, so that a type with arguments stays one parameter.
-/

namespace BytecodePatch

/-- What a member must have: a name, and a return type and parameters if they are given. -/
structure Signature where
  returnType : Option String
  name : String
  params : Option (List String)
deriving DecidableEq

namespace Signature

/-- The depth of brackets after a character. A closing bracket without its partner changes
nothing. -/
def depthAfter (depth : Nat) (character : Char) : Nat :=
  if character = '<' ∨ character = '[' then depth + 1
  else if character = '>' ∨ character = ']' then depth - 1
  else depth

/-- The pieces of a text between the commas outside brackets, at a depth of brackets. -/
def pieces : (depth : Nat) → List Char → List (List Char)
  | _, [] => [[]]
  | depth, character :: rest =>
      if character = ',' ∧ depth = 0 then [] :: pieces depth rest
      else
        match pieces (depthAfter depth character) rest with
        | [] => [[character]]
        | piece :: others => (character :: piece) :: others

/-- The parameters in the inner text of a parameter list. Empty ones are left out. -/
def splitParams (inner : List Char) : List (List Char) :=
  ((pieces 0 inner).map Text.trim).filter fun piece => !piece.isEmpty

/-- The inner text of a parameter list after its opening parenthesis. The closing one may be
missing. -/
def innerText (rest : List Char) : List Char :=
  let rest := Text.trimEnd rest
  if rest.getLast? = some ')' then rest.dropLast else rest

def splitHead (head : List Char) : Option (List Char) × List Char :=
  match Text.cutLast? ' ' head with
  | some (returnType, name) => (some (Text.trim returnType), name)
  | none => (none, head)

def parse (text : String) : Signature :=
  let trimmed := Text.trim text.toList
  let (head, params) := match Text.cutFirst? '(' trimmed with
    | some (head, rest) => (Text.trim head, some (splitParams (innerText rest)))
    | none => (trimmed, none)
  let (returnType, name) := splitHead head
  { returnType := returnType.map String.ofList
    name := String.ofList name
    params := params.map fun params => params.map String.ofList }

end Signature

end BytecodePatch
