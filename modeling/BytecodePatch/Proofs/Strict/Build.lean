import BytecodePatch.Proofs.Build.Finality
import BytecodePatch.Proofs.Strict.Run

/-!
# Strict builds

A build checks and flattens every copy, and takes for granted that the method of a copy is
there when the copy is committed. A strict build asks. Rules may do to their copies whatever
can be done with code; so all code stays such as was made, and a build never fails, nor do
builds one after another.
-/

namespace BytecodePatch

open Strict

variable {Note : Type} {rulebook : Rulebook Note} {program : Program}

/-- If no step of a traversal has a failing access, the traversal has none. -/
theorem Strict.mapM_eq_sure
    {ε α β : Type} {strict : α → Strict ε β} {step : α → Except ε β} {items : List α}
    (each : ∀ item ∈ items, strict item = sure (step item)) :
    items.mapM strict = sure (items.mapM step) := by
  induction items with
  | nil => rfl
  | cons item items inductionHypothesis =>
      have rest : items.mapM strict = sure (items.mapM step) := by
        apply inductionHypothesis
        exact fun item member => each item (List.mem_cons_of_mem _ member)
      rw [List.mapM_cons, List.mapM_cons, each item List.mem_cons_self, rest]
      exact bind_eq_sure fun _ _ => bind_eq_sure fun _ _ => rfl

/-! ## Bodies that were made -/

/-- All bodies of a program have code that was made. -/
def Program.Made (program : Program) : Prop :=
  ∀ numbers method body,
    program.methodAt? numbers = some method → method.body = some body → body.code.Made

/-- Rules that do nothing to a body but what can be done with code. -/
def Rulebook.KeepsMade (rulebook : Rulebook Note) : Prop :=
  ∀ entry ∈ rulebook.rules, ∀ (task : Task) (lookup : Lookup),
    task.program.Made →
      task.body.code.Made → ((entry.2 task).run lookup).1.body.code.Made

theorem Rulebook.KeepsMade.of_find?
    {name : String} {rule : Rule Note}
    (keeps : rulebook.KeepsMade) (found : rulebook.find? name = some rule)
    {task : Task} (programMade : task.program.Made) (made : task.body.code.Made)
    (lookup : Lookup) :
    ((rule task).run lookup).1.body.code.Made := by
  rcases List.lookup_eq_some_iff.mp found with ⟨before, after, rulesEq, _⟩
  have member : (name, rule) ∈ rulebook.rules := by
    rw [rulesEq]
    exact List.mem_append_right before List.mem_cons_self
  exact keeps _ member task lookup programMade made

namespace Staging

theorem Applied.made
    {original body : Body} {entries : List (MethodKey × Application)} {last : Lookup}
    (programMade : program.Made) (keeps : rulebook.KeepsMade) (originalMade : original.code.Made)
    (applied : Applied rulebook program original entries body last) :
    body.code.Made := by
  induction applied with
  | none => exact originalMade
  | @snoc _ body _ now _ target application rule verdict _ _ found ran _ _
      inductionHypothesis =>
      have made :
          ((rule ⟨target, program, application.argument, body⟩).run now).1.body.code.Made :=
        keeps.of_find? found programMade inductionHypothesis now
      rw [ran] at made
      exact made

theorem IsCopy.made
    {staged : Staged} {entries : List (MethodKey × Application)} {lookup : Lookup}
    (programMade : program.Made) (keeps : rulebook.KeepsMade)
    (copy : IsCopy rulebook program staged entries lookup) :
    staged.body.code.Made := by
  rcases copy with ⟨method, original, last, found, _, bodyEq, applied, _⟩
  rw [Program.method?_eq] at found
  exact applied.made programMade keeps (programMade _ _ _ found bodyEq)

theorem Copied.made
    {entries : List (MethodKey × Application)} {copies : List Staged} {lookup : Lookup}
    (programMade : program.Made) (keeps : rulebook.KeepsMade)
    (copied : Copied rulebook program entries copies lookup) :
    ∀ staged ∈ copies, staged.body.code.Made :=
  fun staged member => (copied.copy staged member).made programMade keeps

/-- The method of a copy is there. -/
theorem Copied.present
    {entries : List (MethodKey × Application)} {copies : List Staged} {lookup : Lookup}
    (copied : Copied rulebook program entries copies lookup) :
    ∀ staged ∈ copies, (program.method? staged.method).isSome = true := by
  intro staged member
  rcases copied.copy staged member with ⟨method, _, _, found, _⟩
  exact Option.isSome_iff_exists.mpr ⟨method, found⟩

/-! ## Staging -/

def applyRuleStrict
    (rulebook : Rulebook Note) (target : MethodKey) (application : Application)
    (staged : Staged) (progress : Progress Note) :
    Option (Except PatchError Staged × Progress Note) :=
  if staged.rules.contains application.rule then
    some (.error (.ruleAlreadyApplied application.rule target.text), progress)
  else
    match rulebook.find? application.rule with
    | none => some (.error (.unknownRule application.rule), progress)
    | some rule =>
        let task : Task :=
          ⟨target, progress.lookup.program, application.argument, staged.body⟩
        let (verdict, lookup) := (rule task).run progress.lookup
        let invocation : Invocation Note :=
          ⟨target, staged.method, application, verdict.outcome, verdict.note⟩
        let progress : Progress Note := ⟨lookup, progress.log ++ [invocation]⟩
        match verdict.outcome with
        | .error error => some (.error error, progress)
        | .ok () => do
            match ← (verdict.body.code.asking verdict.body.code.verify).run with
            | .error rejection => return (.error (.rejected rejection), progress)
            | .ok () =>
                return (.ok { staged with
                  body := verdict.body
                  rules := staged.rules ++ [application.rule]
                  state := .rulesApplied }, progress)

def applyRulesStrict (rulebook : Rulebook Note) (target : MethodKey) :
    List Application → Staged → Progress Note →
      Option (Except BuildError Staged × Progress Note)
  | [], staged, progress => some (.ok staged, progress)
  | application :: applications, staged, progress => do
      match ← applyRuleStrict rulebook target application staged progress with
      | (.error error, progress) => return (.error ⟨application.rule, target, error⟩, progress)
      | (.ok staged, progress) => applyRulesStrict rulebook target applications staged progress

def stageTargetStrict
    (rulebook : Rulebook Note) (target : MethodKey) (rule : Application)
    (others : List Application) (copies : List Staged) (progress : Progress Note) :
    Option (Except BuildError (List Staged) × Progress Note) :=
  let (place, lookup) := progress.lookup.askMethod target.type target.method
  let progress := { progress with lookup }
  let staged : Except PatchError Staged :=
    place.bind fun method => findOrCopy lookup.program method target copies
  match staged with
  | .error error => some (.error ⟨rule.rule, target, error⟩, progress)
  | .ok staged => do
      let (result, progress) ← applyRulesStrict rulebook target (rule :: others) staged progress
      return (result.map fun staged => put staged copies, progress)

def stageAllStrict (rulebook : Rulebook Note) :
    List (MethodKey × List Application) → List Staged → Progress Note →
      Option (Except BuildError (List Staged) × Progress Note)
  | [], copies, progress => some (.ok copies, progress)
  | (_, []) :: targets, copies, progress => stageAllStrict rulebook targets copies progress
  | (target, rule :: others) :: targets, copies, progress => do
      match ← stageTargetStrict rulebook target rule others copies progress with
      | (.error error, progress) => return (.error error, progress)
      | (.ok copies, progress) => stageAllStrict rulebook targets copies progress

variable {entries : List (MethodKey × Application)} {staged : Staged} {copies : List Staged}
  {progress : Progress Note} {target : MethodKey}

theorem applyRuleStrict_eq
    (programMade : progress.lookup.program.Made) (keeps : rulebook.KeepsMade)
    (made : staged.body.code.Made) (application : Application) :
    applyRuleStrict rulebook target application staged progress =
      some (applyRule rulebook target application staged progress) := by
  unfold applyRuleStrict applyRule
  by_cases repeated : staged.rules.contains application.rule = true
  · rw [if_pos repeated, if_pos repeated]
  · rw [if_neg repeated, if_neg repeated]
    cases found : rulebook.find? application.rule with
    | none => rfl
    | some rule =>
        have left :
            ((rule ⟨target, progress.lookup.program, application.argument, staged.body⟩).run
              progress.lookup).1.body.code.Made :=
          keeps.of_find? found programMade made progress.lookup
        cases ran :
          (rule ⟨target, progress.lookup.program, application.argument, staged.body⟩).run
            progress.lookup with
        | mk verdict lookup =>
            rw [ran] at left
            dsimp only
            rw [ran]
            cases verdict.outcome with
            | error error => rfl
            | ok _ =>
                dsimp only
                rw [left.sound.linked.asking_eq]
                cases verdict.body.code.verify with
                | error rejection => rfl
                | ok _ => rfl

theorem applyRulesStrict_eq
    (programMade : program.Made) (keeps : rulebook.KeepsMade) :
    ∀ (applications : List Application) {staged : Staged} {progress : Progress Note}
      {entries : List (MethodKey × Application)},
      IsCopy rulebook program staged entries progress.lookup →
        progress.lookup.program = program →
          applyRulesStrict rulebook target applications staged progress =
            some (applyRules rulebook target applications staged progress)
  | [], _, _, _, _, _ => rfl
  | application :: applications, staged, progress, entries, copy, same => by
      have made := copy.made programMade keeps
      have asked := reaches_applyRule rulebook target application staged progress
      rw [applyRulesStrict, applyRules,
        applyRuleStrict_eq (same ▸ programMade) keeps made application]
      cases applied : applyRule rulebook target application staged progress with
      | mk result further =>
          rw [applied] at asked
          cases result with
          | error error => rfl
          | ok next =>
              have sameNext : further.lookup.program = program :=
                asked.program_eq.trans same
              exact applyRulesStrict_eq programMade keeps applications
                (isCopy_of_applyRule copy same applied).2 sameNext

theorem stageTargetStrict_eq
    (programMade : program.Made) (keeps : rulebook.KeepsMade)
    (copied : Copied rulebook program entries copies progress.lookup)
    (rule : Application) (others : List Application) :
    stageTargetStrict rulebook target rule others copies progress =
      some (stageTarget rulebook target rule others copies progress) := by
  unfold stageTargetStrict stageTarget
  have asked := Lookup.reaches_askMethod progress.lookup target.type target.method
  cases answered : progress.lookup.askMethod target.type target.method with
  | mk place lookup =>
      rw [answered] at asked
      have same : lookup.program = program :=
        (copied.reached.trans asked).program_eq
      dsimp only
      cases placed :
        place.bind fun method => findOrCopy lookup.program method target copies with
      | error error => rfl
      | ok staged =>
          rcases bind_eq_ok_iff.mp placed with ⟨method, _, made⟩
          rw [same] at made
          have copy := (isCopy_of_findOrCopy copied asked made).2
          have strict :
              applyRulesStrict rulebook target (rule :: others) staged
                  { progress with lookup := lookup } =
                some (applyRules rulebook target (rule :: others) staged
                  { progress with lookup := lookup }) :=
            applyRulesStrict_eq programMade keeps (rule :: others) copy same
          dsimp only
          rw [strict]
          rfl

theorem stageAllStrict_eq
    (programMade : program.Made) (keeps : rulebook.KeepsMade) :
    ∀ (targets : List (MethodKey × List Application))
      {entries : List (MethodKey × Application)} {copies : List Staged}
      {progress : Progress Note},
      Copied rulebook program entries copies progress.lookup →
        stageAllStrict rulebook targets copies progress =
          some (stageAll rulebook targets copies progress)
  | [], _, _, _, _ => rfl
  | (_, []) :: targets, _, _, _, copied =>
      stageAllStrict_eq programMade keeps targets copied
  | (target, rule :: others) :: targets, entries, copies, progress, copied => by
      rw [stageAllStrict, stageAll, stageTargetStrict_eq programMade keeps copied rule others]
      cases staged : stageTarget rulebook target rule others copies progress with
      | mk result further =>
          cases result with
          | error error => rfl
          | ok next =>
              exact stageAllStrict_eq programMade keeps targets (copied.stageTarget staged)

end Staging

/-! ## Builds -/

namespace Build

def flattenCopyStrict (staged : Staged) : Strict BuildError TargetReport :=
  ExceptT.mk <| staged.body.flattenStrict.run.map fun
    | .ok image => .ok (reportOn staged image)
    | .error rejection =>
        .error ⟨staged.rules.getLast?.getD "", staged.target, .rejected rejection⟩

/-- There must be a method to commit. -/
def commitStrict (program : Program) (staged : Staged) : Option Program := do
  let _ ← program.method? staged.method
  return commit program staged

def runStrict (program : Program) (rulebook : Rulebook Note) (plan : Plan) :
    Option (Outcome Note) :=
  match unknownRule? rulebook plan with
  | some error => some ⟨.error error, program, []⟩
  | none => do
      let (staged, progress) ←
        Staging.stageAllStrict rulebook plan.targets [] ⟨Lookup.ofProgram program, []⟩
      match staged with
      | .error error => return ⟨.error error, program, progress.log⟩
      | .ok copies =>
          match ← (copies.mapM flattenCopyStrict).run with
          | .error error => return ⟨.error error, program, progress.log⟩
          | .ok targets =>
              let committed ← copies.foldlM commitStrict program
              return ⟨.ok ⟨targets, progress.lookup.counts⟩, committed, progress.log⟩

/-- The program after strict builds, one after another. -/
def afterAllStrict (program : Program) (builds : List (Rulebook Note × Plan)) :
    Option Program :=
  builds.foldlM (fun program build => (runStrict program build.1 build.2).map Outcome.program)
    program

variable {plan : Plan}

theorem flattenCopyStrict_eq {staged : Staged} (sound : staged.body.code.Sound) :
    flattenCopyStrict staged = sure (flattenCopy staged) := by
  rw [flattenCopyStrict, Body.flattenStrict_eq sound, flattenCopy]
  cases staged.body.flatten <;> rfl

/-- A commit leaves a method where there was one. -/
theorem isSome_method?_commit
    {place : MemberPlace} (staged : Staged) (present : (program.method? place).isSome = true) :
    ((commit program staged).method? place).isSome = true := by
  rw [Program.method?_eq] at present ⊢
  rw [commit, Program.modifyMethod_eq, Program.methodAt?_mapMethods, Option.isSome_map]
  exact present

/-- Committing copies of methods that are there never misses one. -/
theorem foldlM_commitStrict_eq
    {copies : List Staged}
    (present : ∀ staged ∈ copies, (program.method? staged.method).isSome = true) :
    copies.foldlM commitStrict program = some (copies.foldl commit program) := by
  apply foldlM_eq_foldl fun program =>
    ∀ staged ∈ copies, (program.method? staged.method).isSome = true
  · intro program staged member present
    rcases Option.isSome_iff_exists.mp (present staged member) with ⟨method, found⟩
    constructor
    · rw [commitStrict, found]
      rfl
    · exact fun other otherMember => isSome_method?_commit staged (present other otherMember)
  · exact present

/-- No build fails, whatever it comes to. -/
theorem runStrict_eq
    (programMade : program.Made) (keeps : rulebook.KeepsMade) (plan : Plan) :
    runStrict program rulebook plan = some (run program rulebook plan) := by
  cases known : unknownRule? rulebook plan with
  | some error => simp [runStrict, run, known]
  | none =>
      rw [run_of_known known, runStrict, known]
      dsimp only
      rw [Staging.stageAllStrict_eq programMade keeps plan.targets Staging.Copied.start]
      cases staging : Staging.stageAll rulebook plan.targets [] ⟨.ofProgram program, []⟩ with
      | mk result progress =>
          cases result with
          | error error => rfl
          | ok copies =>
              have copied := Staging.Copied.start.stageAll staging
              have flattened :
                  copies.mapM flattenCopyStrict = sure (copies.mapM flattenCopy) := by
                apply mapM_eq_sure
                intro staged member
                exact flattenCopyStrict_eq (copied.made programMade keeps staged member).sound
              have committed := foldlM_commitStrict_eq copied.present
              rw [Option.bind_eq_bind, Option.bind_some]
              dsimp only
              rw [flattened, mapM_flattenCopy_of_copied copied]
              exact congrArg (Option.bind · _) committed

/-- The bodies after a build were made as well. -/
theorem made_run
    (programMade : program.Made) (keeps : rulebook.KeepsMade) (plan : Plan) :
    (run program rulebook plan).program.Made := by
  rcases run_cases program rulebook plan with
    ⟨_, _, runEq⟩ | ⟨_, copies, _, _, copied, runEq⟩
  · rw [runEq]
    exact programMade
  · rw [runEq]
    intro numbers method body found bodyEq
    rw [foldl_commit copies program copied.distinct, Program.methodAt?_mapMethods] at found
    rcases Option.map_eq_some_iff.mp found with ⟨before, foundBefore, rfl⟩
    cases brought : bodyAmong copies numbers with
    | none =>
        rw [brought] at bodyEq
        exact programMade numbers before body foundBefore bodyEq
    | some new =>
        rw [brought] at bodyEq
        rcases Option.some.inj bodyEq with rfl
        rcases exists_of_bodyAmong brought with ⟨staged, member, _, rfl⟩
        exact copied.made programMade keeps staged member

theorem made_afterAll
    {builds : List (Rulebook Note × Plan)}
    (programMade : program.Made) (keeps : ∀ build ∈ builds, build.1.KeepsMade) :
    (afterAll program builds).Made := by
  induction builds generalizing program with
  | nil => exact programMade
  | cons build builds inductionHypothesis =>
      have keepsFirst := keeps build List.mem_cons_self
      apply inductionHypothesis (made_run programMade keepsFirst build.2)
      exact fun build member => keeps build (List.mem_cons_of_mem _ member)

/-- No build fails of many, one after another. -/
theorem afterAllStrict_eq
    {builds : List (Rulebook Note × Plan)}
    (programMade : program.Made) (keeps : ∀ build ∈ builds, build.1.KeepsMade) :
    afterAllStrict program builds = some (afterAll program builds) := by
  apply foldlM_eq_foldl Program.Made
  · intro program build member programMade
    rw [runStrict_eq programMade (keeps build member) build.2]
    exact ⟨rfl, made_run programMade (keeps build member) build.2⟩
  · exact programMade

end Build

/-! ## All that is done -/

/-- Nothing ever fails. Drafts are assembled and images loaded; code that was made is asked,
flattened and put through runs with any handles, cursors and numbers; builds follow one
another on a program. The bodies after them were made, so that all this can go on with them. -/
theorem unfailing_throughout :
    (∀ (draft : Draft) (tag : Nat),
        draft.assembleStrict tag = some (draft.assemble tag)) ∧
      (∀ (image : Image) (tag : Nat), image.loadStrict tag = sure (image.load tag)) ∧
      (∀ code : Code, code.Made → code.Unfailing ∧ ∀ actions, (code.run actions).Made) ∧
      ∀ (program : Program) (builds : List (Rulebook Note × Plan)),
        program.Made → (∀ build ∈ builds, build.1.KeepsMade) →
          Build.afterAllStrict program builds = some (Build.afterAll program builds) ∧
            (Build.afterAll program builds).Made ∧
              ∀ (rulebook : Rulebook Note) (plan : Plan),
                rulebook.KeepsMade →
                  Build.runStrict (Build.afterAll program builds) rulebook plan =
                    some (Build.run (Build.afterAll program builds) rulebook plan) := by
  refine ⟨Draft.assembleStrict_eq, Image.loadStrict_eq, ?_, ?_⟩
  · intro code made
    exact ⟨made.sound.unfailing, made.run⟩
  · intro program builds programMade keeps
    have made := Build.made_afterAll programMade keeps
    refine ⟨Build.afterAllStrict_eq programMade keeps, made, ?_⟩
    exact fun rulebook plan rulesKeep => Build.runStrict_eq made rulesKeep plan

/-- A run goes on after a handle that went and one of other code were refused. Its code is the
body of a method on which a rule is run in two builds, the second of which is refused. -/
theorem unfailing_throughout_refused :
    let code := (Code.empty 0).run
      [.append (.plain .nop), .append (.plain .ret), .remove ⟨0, 0⟩ .following,
        .remove ⟨0, 0⟩ .reject, .insertBefore ⟨7, 1⟩ (.plain .pop),
        .removeRange ⟨0, 1⟩ 5 .reject]
    let method : MethodDecl := ⟨"f", "void", [], some ⟨[], [], code⟩, [], .unpatched⟩
    let program : Program := ⟨[⟨"m", [⟨"T", [], [method]⟩]⟩]⟩
    let rulebook : Rulebook Unit := ⟨[("add", Build.addReturn (.ok ()))]⟩
    let plan : Plan := ⟨[(⟨"T", "f"⟩, [⟨"add", .null⟩])]⟩
    let builds := [(rulebook, plan), (rulebook, plan)]
    (code.Made ∧ code.lines = [⟨⟨0, 1⟩, .plain .ret⟩]) ∧ code.Unfailing ∧
      (program.Made ∧ ∀ build ∈ builds, build.1.KeepsMade) ∧
        Build.afterAllStrict program builds = some (Build.afterAll program builds) ∧
          (Build.afterAll program builds).Made ∧
            ((Build.afterAll program builds).methods.map fun entry => entry.2.2.state) =
              [.committed] := by
  intro code method program rulebook plan builds
  have made : code.Made := (Code.Made.of_origin (.empty 0)).run _
  have programMade : program.Made := by
    intro numbers held body found bodyEq
    have heldEq : method = held := by
      rcases numbers with ⟨_ | module, _ | type, _ | index⟩ <;> cases found
      rfl
    subst heldEq
    rcases Option.some.inj bodyEq with rfl
    exact made
  have keeps : rulebook.KeepsMade := by
    intro entry member task lookup _ bodyMade
    rcases List.mem_singleton.mp member with rfl
    exact bodyMade.run [.append (.plain .ret)]
  have allKeep : ∀ build ∈ builds, build.1.KeepsMade := by
    simpa [builds] using keeps
  rcases (@unfailing_throughout Unit).2.2 with ⟨unfailing, built⟩
  rcases built program builds programMade allKeep with ⟨strict, madeAfter, _⟩
  exact ⟨⟨made, by rfl⟩, (unfailing code made).1, ⟨programMade, allKeep⟩, strict, madeAfter,
    by decide +kernel⟩

end BytecodePatch
