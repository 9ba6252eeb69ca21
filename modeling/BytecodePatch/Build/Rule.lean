import BytecodePatch.Build.Inquiry
import BytecodePatch.Plan.Basic

/-!
# Rules

A rule works on a copy of the body of a method. It is given the target under which it was
planned, its argument, the program and the copy, and may look symbols up. What it leaves is
the copy as it changed it, whether it failed, and a note for whoever follows the build.

Rules are kept in a rulebook under names, in order of registration.
-/

namespace BytecodePatch

/-- What a rule leaves. The body is that of the copy also where the rule failed. -/
structure Verdict (Note : Type) where
  body : Body
  outcome : Except PatchError Unit
  note : Note

/-- What a rule is given: its target, the program, its argument and the body. -/
structure Task where
  target : MethodKey
  program : Program
  argument : Json
  body : Body

abbrev Rule (Note : Type) := Task → Inquiry (Verdict Note)

/-- Rules under their names, in order of registration. -/
structure Rulebook (Note : Type) where
  rules : List (String × Rule Note)

namespace Rulebook

variable {Note : Type}

def empty : Rulebook Note :=
  ⟨[]⟩

def find? (rulebook : Rulebook Note) (name : String) : Option (Rule Note) :=
  rulebook.rules.lookup name

def contains (rulebook : Rulebook Note) (name : String) : Bool :=
  (rulebook.find? name).isSome

def names (rulebook : Rulebook Note) : List String :=
  rulebook.rules.map Prod.fst

def register
    (rulebook : Rulebook Note) (name : String) (rule : Rule Note) :
    Except PatchError (Rulebook Note) :=
  if rulebook.contains name then .error (.duplicateRule name)
  else .ok ⟨rulebook.rules ++ [(name, rule)]⟩

def text (rulebook : Rulebook Note) : String :=
  "[" ++ String.intercalate ", " (rulebook.names.map Text.quoted) ++ "]"

end Rulebook

end BytecodePatch
