import BytecodePatch.Body.Image
import BytecodePatch.Build.Rule

/-!
# Staging

The first half of a build. Target after target, the method is looked up, its body is copied
and the rules of the target run on the copy, each followed by a check of the branches. Two
targets that name one method share its copy. The first error ends the staging; the program
itself is never touched.

The log lists every rule that was run, with what it left.
-/

namespace BytecodePatch

/-- Why a build fails, with the rule and the target at which it did. -/
structure BuildError where
  rule : String
  target : MethodKey
  cause : PatchError

def BuildError.message (error : BuildError) : String :=
  "rule `" ++ error.rule ++ "` failed on `" ++ error.target.text ++ "`: " ++ error.cause.message

/-- A method that is being patched: the target that first named it, the copy of its body, the
rules that were applied so far and the number of instructions it had before them. -/
structure Staged where
  target : MethodKey
  method : MemberPlace
  body : Body
  rules : List String
  state : PatchState
  before : Nat

/-- A rule that was run, and what it left. -/
structure Invocation (Note : Type) where
  target : MethodKey
  method : MemberPlace
  application : Application
  outcome : Except PatchError Unit
  note : Note

/-- The lookup and the log as they go through a build. -/
structure Progress (Note : Type) where
  lookup : Lookup
  log : List (Invocation Note)

namespace Staging

variable {Note : Type}

def copyOf (program : Program) (method : MemberPlace) (target : MethodKey) :
    Except PatchError Staged :=
  match program.method? method with
  | none => .error (.notAMethod target.text)
  | some declaration =>
      if declaration.state = .committed then .error (.alreadyCommitted target.text)
      else
        match declaration.body with
        | none => .error (.missingBody target.text)
        | some body => .ok ⟨target, method, body, [], .unpatched, body.code.length⟩

def applyRule
    (rulebook : Rulebook Note) (target : MethodKey) (application : Application)
    (staged : Staged) (progress : Progress Note) :
    Except PatchError Staged × Progress Note :=
  if staged.rules.contains application.rule then
    (.error (.ruleAlreadyApplied application.rule target.text), progress)
  else
    match rulebook.find? application.rule with
    | none => (.error (.unknownRule application.rule), progress)
    | some rule =>
        let task : Task :=
          ⟨target, progress.lookup.program, application.argument, staged.body⟩
        let (verdict, lookup) := (rule task).run progress.lookup
        let invocation : Invocation Note :=
          ⟨target, staged.method, application, verdict.outcome, verdict.note⟩
        let progress : Progress Note := ⟨lookup, progress.log ++ [invocation]⟩
        match verdict.outcome with
        | .error error => (.error error, progress)
        | .ok () =>
            match verdict.body.code.verify with
            | .error rejection => (.error (.rejected rejection), progress)
            | .ok () =>
                (.ok { staged with
                  body := verdict.body
                  rules := staged.rules ++ [application.rule]
                  state := .rulesApplied }, progress)

def applyRules (rulebook : Rulebook Note) (target : MethodKey) :
    List Application → Staged → Progress Note → Except BuildError Staged × Progress Note
  | [], staged, progress => (.ok staged, progress)
  | application :: applications, staged, progress =>
      match applyRule rulebook target application staged progress with
      | (.error error, progress) => (.error ⟨application.rule, target, error⟩, progress)
      | (.ok staged, progress) => applyRules rulebook target applications staged progress

def put (staged : Staged) : List Staged → List Staged
  | [] => [staged]
  | other :: others =>
      if other.method = staged.method then staged :: others else other :: put staged others

def findOrCopy
    (program : Program) (method : MemberPlace) (target : MethodKey) (copies : List Staged) :
    Except PatchError Staged :=
  match copies.find? fun staged => staged.method = method with
  | some staged => .ok staged
  | none => copyOf program method target

def stageTarget
    (rulebook : Rulebook Note) (target : MethodKey) (rule : Application)
    (others : List Application) (copies : List Staged) (progress : Progress Note) :
    Except BuildError (List Staged) × Progress Note :=
  let (place, lookup) := progress.lookup.askMethod target.type target.method
  let progress := { progress with lookup }
  let staged : Except PatchError Staged :=
    place.bind fun method => findOrCopy lookup.program method target copies
  match staged with
  | .error error => (.error ⟨rule.rule, target, error⟩, progress)
  | .ok staged =>
      let (result, progress) := applyRules rulebook target (rule :: others) staged progress
      (result.map fun staged => put staged copies, progress)

/-- Stages targets one after another. A target without rules is passed over. -/
def stageAll (rulebook : Rulebook Note) :
    List (MethodKey × List Application) → List Staged → Progress Note →
      Except BuildError (List Staged) × Progress Note
  | [], copies, progress => (.ok copies, progress)
  | (_, []) :: targets, copies, progress => stageAll rulebook targets copies progress
  | (target, rule :: others) :: targets, copies, progress =>
      match stageTarget rulebook target rule others copies progress with
      | (.error error, progress) => (.error error, progress)
      | (.ok copies, progress) => stageAll rulebook targets copies progress

end Staging

end BytecodePatch
