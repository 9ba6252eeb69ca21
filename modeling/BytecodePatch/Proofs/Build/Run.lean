import BytecodePatch.Build.Run
import BytecodePatch.Proofs.Body.Image
import BytecodePatch.Proofs.Build.Staging
import BytecodePatch.Proofs.Program.Change

/-!
# Builds are all or nothing

A build that fails leaves the program as it was. A build that succeeds puts a new body into
each method that an application of the plan is meant for, and does nothing else.
-/

namespace BytecodePatch.Build

variable {Note : Type} {rulebook : Rulebook Note} {program : Program} {plan : Plan}

/-- The body that the copy of a method brings. -/
def bodyAmong (copies : List Staged) (numbers : Nat × Nat × Nat) : Option Body :=
  (copies.find? fun staged => staged.method.numbers = numbers).map Staged.body

theorem exists_of_bodyAmong
    {copies : List Staged} {numbers : Nat × Nat × Nat} {body : Body}
    (brought : bodyAmong copies numbers = some body) :
    ∃ staged ∈ copies, staged.method.numbers = numbers ∧ staged.body = body := by
  obtain ⟨staged, found, bodyEq⟩ := Option.map_eq_some_iff.mp brought
  exact ⟨staged, List.mem_of_find?_eq_some found, by simpa using List.find?_some found, bodyEq⟩

theorem exists_bodyAmong
    {copies : List Staged} {staged : Staged} (member : staged ∈ copies) :
    ∃ body, bodyAmong copies staged.method.numbers = some body := by
  rw [← Option.isSome_iff_exists, bodyAmong, Option.isSome_map, List.find?_isSome]
  exact ⟨staged, member, by simp⟩

/-- Committing copies of different methods changes each of these methods once and nothing
else. -/
theorem foldl_commit :
    ∀ (copies : List Staged) (program : Program),
      (copies.map Staged.method).Nodup →
        copies.foldl commit program =
          program.mapMethods fun numbers method =>
            method.withBody (bodyAmong copies numbers)
  | [], program, _ => (Program.mapMethods_eq_self fun _ _ => rfl).symm
  | staged :: copies, program, distinct => by
      obtain ⟨fresh, distinctRest⟩ := List.nodup_cons.mp distinct
      rw [List.foldl_cons, foldl_commit copies _ distinctRest, commit,
        Program.modifyMethod_eq, Program.mapMethods_mapMethods]
      congr 1
      funext numbers method
      by_cases here : numbers = staged.method.numbers
      · subst here
        have absent : bodyAmong copies staged.method.numbers = none := by
          rw [Option.eq_none_iff_forall_ne_some]
          intro body brought
          obtain ⟨other, member, same, _⟩ := exists_of_bodyAmong brought
          exact fresh (List.mem_map.mpr ⟨other, member, MemberPlace.numbers_inj.mp same⟩)
        rw [if_pos rfl, absent]
        simp [bodyAmong, MethodDecl.withBody]
      · rw [if_neg here]
        simp [bodyAmong, Ne.symm here]

/-- What a successful build did. Nothing but methods changed, and of these only the ones with
a new body, each of which is committed with it. The new bodies are for exactly the methods
that some application of the plan is meant for. Each is what all the applications for its
method, in the order of the plan, made of a copy of its old body. -/
structure Patched
    (rulebook : Rulebook Note) (program : Program) (plan : Plan)
    (bodies : Nat × Nat × Nat → Option Body) (result : Program) : Prop where
  result_eq :
    result = program.mapMethods fun numbers method => method.withBody (bodies numbers)
  made :
    ∀ numbers body,
      bodies numbers = some body →
        ∃ place method original last,
          place.numbers = numbers ∧ program.method? place = some method ∧
            method.state ≠ .committed ∧ method.body = some original ∧
              Staging.meantFor program place plan.entries ≠ [] ∧
                Staging.Applied rulebook program original
                  (Staging.meantFor program place plan.entries) body last
  complete :
    ∀ target application,
      (target, application) ∈ plan.entries →
        ∃ place body,
          Lookup.searchMethod program target.type target.method = .ok place ∧
            bodies place.numbers = some body

private theorem patched_of_copied
    {copies : List Staged} {lookup : Lookup}
    (copied : Staging.Copied rulebook program plan.entries copies lookup) :
    Patched rulebook program plan (bodyAmong copies) (copies.foldl commit program) where
  result_eq := foldl_commit copies program copied.distinct
  made := by
    intro numbers body brought
    obtain ⟨staged, member, rfl, rfl⟩ := exists_of_bodyAmong brought
    obtain ⟨method, original, last, found, uncommitted, bodyEq, applied, _⟩ :=
      copied.copy staged member
    exact ⟨staged.method, method, original, last, rfl, found, uncommitted, bodyEq,
      copied.meant staged member, applied⟩
  complete := by
    intro target application member
    obtain ⟨staged, stagedMember, named⟩ := copied.covered (target, application) member
    obtain ⟨body, brought⟩ := exists_bodyAmong stagedMember
    exact ⟨staged.method, body, Staging.names_iff.mp named, brought⟩

/-! ## Runs -/

theorem unknownRule?_eq_none_iff :
    unknownRule? rulebook plan = none ↔
      ∀ entry ∈ plan.entries, rulebook.contains entry.2.rule = true := by
  simp [unknownRule?, List.findSome?_eq_none_iff]

/-- A copy can be flattened exactly if it has no branch without a target. -/
theorem flattenCopy_eq_ok_iff {staged : Staged} {report : TargetReport} :
    flattenCopy staged = .ok report ↔
      staged.body.code.verify = .ok () ∧ report = reportOn staged staged.body.image := by
  cases verified : staged.body.code.verify with
  | error rejection => simp [flattenCopy, Body.flatten, verified, bind, Except.bind]
  | ok _ => simp [flattenCopy, Body.flatten_of_verified verified, eq_comm]

/-- All copies that a staging left can be flattened. -/
theorem mapM_flattenCopy_of_copied
    {entries : List (MethodKey × Application)} {copies : List Staged} {lookup : Lookup}
    (copied : Staging.Copied rulebook program entries copies lookup) :
    copies.mapM flattenCopy = .ok (copies.map fun staged => reportOn staged staged.body.image) :=
  (mapM_eq_ok_iff_of_step fun _ _ => flattenCopy_eq_ok_iff).mpr
    ⟨fun _ member => copied.verified member, rfl⟩

/-- A build whose rules are all known stages its targets, and succeeds exactly if this does:
every copy can be flattened then. -/
theorem run_of_known (known : unknownRule? rulebook plan = none) :
    run program rulebook plan =
      match Staging.stageAll rulebook plan.targets [] ⟨.ofProgram program, []⟩ with
      | (.error error, progress) => ⟨.error error, program, progress.log⟩
      | (.ok copies, progress) =>
          ⟨.ok ⟨copies.map fun staged => reportOn staged staged.body.image,
              progress.lookup.counts⟩,
            copies.foldl commit program, progress.log⟩ := by
  cases staging : Staging.stageAll rulebook plan.targets [] ⟨.ofProgram program, []⟩ with
  | mk result progress =>
      cases result with
      | error error => simp [run, known, staging, bind, Except.bind]
      | ok copies =>
          have flattened :=
            mapM_flattenCopy_of_copied (Staging.Copied.start.stageAll staging)
          simp [run, known, staging, flattened, bind, Except.bind, pure, Except.pure]

/-- A build either fails and keeps the program, or commits the copies that its staging
left. -/
theorem run_cases (program : Program) (rulebook : Rulebook Note) (plan : Plan) :
    (∃ error log, run program rulebook plan = ⟨.error error, program, log⟩) ∨
      ∃ report copies lookup log,
        Staging.Copied rulebook program plan.entries copies lookup ∧
          run program rulebook plan = ⟨.ok report, copies.foldl commit program, log⟩ := by
  cases known : unknownRule? rulebook plan with
  | some error => exact Or.inl ⟨error, [], by simp [run, known]⟩
  | none =>
      rw [run_of_known known]
      split
      · exact Or.inl ⟨_, _, rfl⟩
      · rename_i copies progress staged
        exact Or.inr ⟨_, copies, _, _, Staging.Copied.start.stageAll staged, rfl⟩

theorem run_all_or_nothing
    (program : Program) (rulebook : Rulebook Note) (plan : Plan) :
    (∀ error,
      (run program rulebook plan).result = .error error →
        (run program rulebook plan).program = program) ∧
      ∀ report,
        (run program rulebook plan).result = .ok report →
          ∃ bodies, Patched rulebook program plan bodies (run program rulebook plan).program := by
  rcases run_cases program rulebook plan with
    ⟨failure, log, runEq⟩ | ⟨success, copies, lookup, log, copied, runEq⟩
  · rw [runEq]
    constructor
    · intro error _
      rfl
    · intro report succeeded
      cases succeeded
  · rw [runEq]
    constructor
    · intro error failed
      cases failed
    · intro report _
      exact ⟨_, patched_of_copied copied⟩

/-- A rule that adds a return to the body, however it ends then. -/
def addReturn (outcome : Except PatchError Unit) : Rule Unit :=
  fun task =>
    .done ⟨{ task.body with code := task.body.code.link (.plain .ret) none }, outcome, ()⟩

/-- Two targets name one method in different words, and their rules work on one copy of its
body. A rule that changes the copy and then fails leaves the program as it was. -/
theorem run_all_or_nothing_of_two_names :
    let method : MethodDecl := ⟨"f", "void", [], some ⟨[], [], .empty 0⟩, [], .unpatched⟩
    let program : Program := ⟨[⟨"m", [⟨"T", [], [method]⟩]⟩]⟩
    let rulebook : Rulebook Unit :=
      ⟨[("first", addReturn (.ok ())), ("second", addReturn (.ok ())),
        ("failing", addReturn (.error .invalidAnchor))]⟩
    let plan : Plan :=
      ⟨[(⟨"T", "f"⟩, [⟨"first", .null⟩]), (⟨"T", "void f()"⟩, [⟨"second", .null⟩])]⟩
    let doomed : Plan := ⟨[(⟨"T", "f"⟩, [⟨"first", .null⟩, ⟨"failing", .null⟩])]⟩
    (∃ report, (run program rulebook plan).result = .ok report) ∧
      (∃ bodies, Patched rulebook program plan bodies (run program rulebook plan).program) ∧
      (∃ error, (run program rulebook doomed).result = .error error) ∧
      (run program rulebook doomed).program = program := by
  intro method program rulebook plan doomed
  obtain ⟨report, succeeded⟩ : ∃ report, (run program rulebook plan).result = .ok report :=
    ⟨_, rfl⟩
  obtain ⟨error, failed⟩ : ∃ error, (run program rulebook doomed).result = .error error :=
    ⟨_, rfl⟩
  exact ⟨⟨report, succeeded⟩, (run_all_or_nothing program rulebook plan).2 report succeeded,
    ⟨error, failed⟩, (run_all_or_nothing program rulebook doomed).1 error failed⟩

end BytecodePatch.Build
