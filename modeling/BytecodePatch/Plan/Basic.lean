import BytecodePatch.Program.Basic

/-!
# Plans

A plan says which rules run on which methods, and with which arguments. Targets stand in
the order in which they were first named, and the rules of a target in the order in which
they were added. A rule stands at most once under a target.
-/

namespace BytecodePatch

/-- A target: the name of the declaring type and the signature of the method. -/
structure MethodKey where
  type : String
  method : String
deriving DecidableEq

def MethodKey.text (key : MethodKey) : String :=
  key.type ++ "::" ++ key.method

/-- A rule to run, and its argument. -/
structure Application where
  rule : String
  argument : Json

/-- A rule that is to be added to a target which has it already. -/
structure Clash where
  target : MethodKey
  rule : String
deriving DecidableEq

def Clash.message (clash : Clash) : String :=
  "rule `" ++ clash.rule ++ "` is listed twice for `" ++ clash.target.text ++ "`"

/-- Targets with their applications. -/
structure Plan where
  targets : List (MethodKey × List Application)

namespace Plan

def empty : Plan :=
  ⟨[]⟩

def get? (plan : Plan) (target : MethodKey) : Option (List Application) :=
  plan.targets.lookup target

def length (plan : Plan) : Nat :=
  plan.targets.length

def ruleCount (plan : Plan) : Nat :=
  (plan.targets.map fun (_, applications) => applications.length).foldl (· + ·) 0

/-- Targets with an application added after those of its target; a new target comes last. -/
def addTo (target : MethodKey) (application : Application) :
    List (MethodKey × List Application) → List (MethodKey × List Application)
  | [] => [(target, [application])]
  | (otherTarget, applications) :: targets =>
      if otherTarget = target then (target, applications ++ [application]) :: targets
      else (otherTarget, applications) :: addTo target application targets

def has (plan : Plan) (target : MethodKey) (rule : String) : Bool :=
  ((plan.get? target).getD []).any fun application => application.rule == rule

def add (plan : Plan) (target : MethodKey) (application : Application) : Except Clash Plan :=
  if plan.has target application.rule then .error ⟨target, application.rule⟩
  else .ok ⟨addTo target application plan.targets⟩

/-- Adds applications one after another. At a clash, those before it stay. -/
def addAll (plan : Plan) :
    List (MethodKey × Application) → Except Clash Unit × Plan
  | [] => (.ok (), plan)
  | (target, application) :: entries =>
      match plan.add target application with
      | .ok plan => addAll plan entries
      | .error clash => (.error clash, plan)

def entries (plan : Plan) : List (MethodKey × Application) :=
  plan.targets.flatMap fun (target, applications) =>
    applications.map fun application => (target, application)

/-- Adds every application of another plan. At a clash, those before it stay. -/
def merge (plan other : Plan) : Except Clash Unit × Plan :=
  plan.addAll other.entries

def ofEntries (entries : List (MethodKey × Application)) : Except Clash Plan :=
  match empty.addAll entries with
  | (.ok (), plan) => .ok plan
  | (.error clash, _) => .error clash

/-- The plan of the tags on the methods of a program, in order of module, type, method and
tag. A method is named by its full signature. -/
def ofTags (program : Program) : Except Clash Plan :=
  ofEntries (program.methods.flatMap fun (_, type, method) =>
    method.tags.map fun tag => (⟨type.name, method.signature⟩, ⟨tag.rule, tag.argument⟩))

end Plan

end BytecodePatch
