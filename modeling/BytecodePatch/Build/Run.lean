import BytecodePatch.Build.Staging

/-!
# Builds

A build applies a plan to a program, wholly or not at all. If every target is staged and
every copy can be flattened, each copy takes the place of the body it was made from and its
method is committed. Otherwise the program stays as it is.
-/

namespace BytecodePatch

/-- What a build did to one method: the target that first named it, its rules in order, the
number of instructions before and after, and the image of its new body. -/
structure TargetReport where
  target : MethodKey
  method : MemberPlace
  rules : List String
  state : PatchState
  before : Nat
  after : Nat
  image : Image

/-- What a build did. -/
structure Report where
  targets : List TargetReport
  counts : Lookup.Counts

namespace Report

def ruleCount (report : Report) : Nat :=
  (report.targets.map fun target => target.rules.length).foldl (· + ·) 0

def get? (report : Report) (target : MethodKey) : Option TargetReport :=
  report.targets.find? fun entry => entry.target = target

end Report

/-- How a build ended, the program after it, and the rules that were run. -/
structure Outcome (Note : Type) where
  result : Except BuildError Report
  program : Program
  log : List (Invocation Note)

namespace Build

variable {Note : Type}

def unknownRule? (rulebook : Rulebook Note) (plan : Plan) : Option BuildError :=
  plan.entries.findSome? fun (target, application) =>
    if rulebook.contains application.rule then none
    else some ⟨application.rule, target, .unknownRule application.rule⟩

def reportOn (staged : Staged) (image : Image) : TargetReport where
  target := staged.target
  method := staged.method
  rules := staged.rules
  state := .committed
  before := staged.before
  after := staged.body.code.length
  image := image

def flattenCopy (staged : Staged) : Except BuildError TargetReport :=
  match staged.body.flatten with
  | .ok image => .ok (reportOn staged image)
  | .error rejection =>
      .error ⟨staged.rules.getLast?.getD "", staged.target, .rejected rejection⟩

def commit (program : Program) (staged : Staged) : Program :=
  program.modifyMethod staged.method fun method =>
    { method with body := some staged.body, state := .committed }

def run (program : Program) (rulebook : Rulebook Note) (plan : Plan) : Outcome Note :=
  match unknownRule? rulebook plan with
  | some error => ⟨.error error, program, []⟩
  | none =>
      let (staged, progress) :=
        Staging.stageAll rulebook plan.targets [] ⟨Lookup.ofProgram program, []⟩
      let reported : Except BuildError (List Staged × List TargetReport) := do
        let copies ← staged
        let targets ← copies.mapM flattenCopy
        return (copies, targets)
      match reported with
      | .error error => ⟨.error error, program, progress.log⟩
      | .ok (copies, targets) =>
          ⟨.ok ⟨targets, progress.lookup.counts⟩, copies.foldl commit program, progress.log⟩

end Build

end BytecodePatch
