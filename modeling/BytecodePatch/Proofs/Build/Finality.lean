import BytecodePatch.Proofs.Build.Run
import Mathlib.Data.Option.Basic

/-!
# Committed methods stay

Builds may follow one another on one program, with any rules and plans. To each method they
do at most one thing, once: they commit it with a new body. A method that is committed is never
touched again, because a copy is only made of a method that is not. The state in which rules
have been applied to a copy is never seen in a program.
-/

namespace BytecodePatch

/-- What builds do to a method: nothing, or they commit it with a new body, unless it is
committed already. -/
inductive MethodDecl.Advances (before : MethodDecl) : MethodDecl → Prop where
  | same : Advances before before
  | committed (body : Body) (uncommitted : before.state ≠ .committed) :
      Advances before (before.withBody (some body))

namespace MethodDecl.Advances

variable {before middle after : MethodDecl}

/-- Nothing becomes of a committed method. -/
theorem eq_of_committed (advanced : before.Advances after) (committed : before.state = .committed) :
    after = before := by
  cases advanced with
  | same => rfl
  | committed _ uncommitted => exact absurd committed uncommitted

theorem trans (first : before.Advances middle) (second : middle.Advances after) :
    before.Advances after := by
  cases first with
  | same => exact second
  | committed body uncommitted =>
      rw [second.eq_of_committed rfl]
      exact committed body uncommitted

end MethodDecl.Advances

/-- Every method stays or is committed, and there are no other methods. -/
def Program.Advances (before after : Program) : Prop :=
  ∀ numbers,
    Option.Rel MethodDecl.Advances (before.methodAt? numbers) (after.methodAt? numbers)

namespace Program.Advances

variable {before middle after : Program} {numbers : Nat × Nat × Nat} {method : MethodDecl}

theorem refl (program : Program) : program.Advances program := by
  intro numbers
  cases program.methodAt? numbers with
  | none => exact .none
  | some method => exact .some .same

theorem forward
    (advanced : before.Advances after) (found : before.methodAt? numbers = some method) :
    ∃ now, after.methodAt? numbers = some now ∧ method.Advances now := by
  have related := advanced numbers
  rw [found] at related
  cases later : after.methodAt? numbers with
  | none =>
      rw [later] at related
      cases related
  | some now =>
      rw [later] at related
      cases related with
      | some methodAdvanced => exact ⟨now, rfl, methodAdvanced⟩

theorem backward
    (advanced : before.Advances after) (found : after.methodAt? numbers = some method) :
    ∃ earlier, before.methodAt? numbers = some earlier ∧ earlier.Advances method := by
  cases earlierFound : before.methodAt? numbers with
  | none =>
      have related := advanced numbers
      rw [earlierFound, found] at related
      cases related
  | some earlier =>
      rcases advanced.forward earlierFound with ⟨now, nowFound, methodAdvanced⟩
      obtain rfl := Option.some.inj (found.symm.trans nowFound)
      exact ⟨earlier, rfl, methodAdvanced⟩

theorem trans (first : before.Advances middle) (second : middle.Advances after) :
    before.Advances after := by
  intro numbers
  cases found : before.methodAt? numbers with
  | none =>
      cases later : after.methodAt? numbers with
      | none => exact .none
      | some now =>
          rcases second.backward later with ⟨between, betweenFound, _⟩
          rcases first.backward betweenFound with ⟨earlier, earlierFound, _⟩
          rw [found] at earlierFound
          cases earlierFound
  | some method =>
      rcases first.forward found with ⟨between, betweenFound, firstAdvanced⟩
      rcases second.forward betweenFound with ⟨now, nowFound, secondAdvanced⟩
      rw [nowFound]
      exact .some (firstAdvanced.trans secondAdvanced)

end Program.Advances

namespace Build

variable {Note : Type}

/-- The program after builds, one after another, whether they succeed or fail. -/
def afterAll (program : Program) (builds : List (Rulebook Note × Plan)) : Program :=
  builds.foldl (fun program build => (run program build.1 build.2).program) program

/-- One build commits only methods that are not committed. -/
theorem advances_run (program : Program) (rulebook : Rulebook Note) (plan : Plan) :
    program.Advances (run program rulebook plan).program := by
  rcases run_cases program rulebook plan with
    ⟨_, _, runEq⟩ | ⟨_, copies, _, _, copied, runEq⟩
  · rw [runEq]
    exact .refl program
  · rw [runEq]
    intro numbers
    rw [foldl_commit copies program copied.distinct, Program.methodAt?_mapMethods]
    cases found : program.methodAt? numbers with
    | none => exact .none
    | some method =>
        cases brought : bodyAmong copies numbers with
        | none =>
            rw [Option.map_some]
            exact .some .same
        | some body =>
            rw [Option.map_some]
            rcases exists_of_bodyAmong brought with ⟨staged, member, rfl, _⟩
            rw [← Program.method?_eq] at found
            exact .some (.committed body (copied.uncommitted member found))

/-- Many builds commit only methods that are not committed. -/
theorem advances_afterAll (program : Program) (builds : List (Rulebook Note × Plan)) :
    program.Advances (afterAll program builds) := by
  induction builds generalizing program with
  | nil => exact .refl program
  | cons build builds inductionHypothesis =>
      exact (advances_run program build.1 build.2).trans (inductionHypothesis _)

/-! ## Targets that are committed -/

section Refusal

variable {rulebook : Rulebook Note} {program : Program} {plan : Plan}
variable {before after : List (MethodKey × List Application)}
variable {target : MethodKey} {rule : Application} {others : List Application}
variable {place : MemberPlace} {method : MethodDecl}

/-- No copy is made of a committed method, so none was made before. -/
theorem findOrCopy_of_committed
    {entries : List (MethodKey × Application)} {copies : List Staged} {lookup : Lookup}
    (copied : Staging.Copied rulebook program entries copies lookup)
    (found : program.method? place = some method) (committed : method.state = .committed) :
    Staging.findOrCopy program place target copies =
      .error (.alreadyCommitted target.text) := by
  have absent : copies.find? (fun staged => staged.method = place) = none := by
    rw [List.find?_eq_none]
    intro staged member same
    have samePlace : staged.method = place := of_decide_eq_true same
    exact copied.uncommitted member (samePlace ▸ found) committed
  simp [Staging.findOrCopy, absent, Staging.copyOf, found, committed]

/-- Once the targets before it are staged, a target that names a committed method is
refused, on the account of its first rule. -/
theorem stageAll_of_committed
    (rule : Application) (others : List Application)
    (after : List (MethodKey × List Application))
    {copies : List Staged} {progress : Progress Note}
    (named : Lookup.searchMethod program target.type target.method = .ok place)
    (found : program.method? place = some method) (committed : method.state = .committed)
    (staged :
      Staging.stageAll rulebook before [] ⟨.ofProgram program, []⟩ = (.ok copies, progress)) :
    (Staging.stageAll rulebook (before ++ (target, rule :: others) :: after) []
        ⟨.ofProgram program, []⟩).1 =
      .error ⟨rule.rule, target, .alreadyCommitted target.text⟩ := by
  have copied := Staging.Copied.start.stageAll staged
  have asked := Lookup.reaches_askMethod progress.lookup target.type target.method
  have answered :
      (progress.lookup.askMethod target.type target.method).1 = .ok place := by
    rw [Lookup.askMethod_eq copied.faithful, copied.reached.program_eq]
    exact named
  have refused :
      Staging.findOrCopy (progress.lookup.askMethod target.type target.method).2.program place
          target copies =
        .error (.alreadyCommitted target.text) := by
    rw [asked.program_eq, copied.reached.program_eq]
    exact findOrCopy_of_committed copied found committed
  rw [Staging.stageAll_append, staged]
  simp [Staging.stageAll, Staging.stageTarget, answered, refused, Except.bind]

/-- A plan with a target that names a committed method cannot be carried out. -/
theorem exists_error_of_committed
    (rulebook : Rulebook Note)
    (targets : plan.targets = before ++ (target, rule :: others) :: after)
    (named : Lookup.searchMethod program target.type target.method = .ok place)
    (found : program.method? place = some method) (committed : method.state = .committed) :
    ∃ error, (run program rulebook plan).result = .error error := by
  rcases run_cases program rulebook plan with
    ⟨error, _, runEq⟩ | ⟨_, copies, _, _, copied, _⟩
  · exact ⟨error, by rw [runEq]⟩
  · have member : (target, rule) ∈ plan.entries := by
      simp [Plan.entries, targets]
    rcases copied.covered _ member with ⟨staged, stagedMember, stagedNamed⟩
    have samePlace := (Staging.names_iff.mp stagedNamed).symm.trans named
    rw [← Except.ok.inj samePlace] at found
    exact absurd committed (copied.uncommitted stagedMember found)

end Refusal

/-! ## Sequences of builds -/

/-- How the methods of a program stand after builds, and how they will stand after more. -/
structure Finality (program : Program) (builds : List (Rulebook Note × Plan)) : Prop where
  /-- A committed method keeps its state, its body and all else. -/
  final :
    ∀ more numbers method,
      (afterAll program builds).methodAt? numbers = some method →
        method.state = .committed →
          (afterAll program (builds ++ more)).methodAt? numbers = some method
  /-- A method that was unpatched still is, with its original body, or it is committed. -/
  started :
    ∀ numbers method,
      program.methodAt? numbers = some method →
        method.state = .unpatched →
          ∃ now,
            (afterAll program builds).methodAt? numbers = some now ∧
              (now.state = .unpatched ∧ now.body = method.body ∨ now.state = .committed)
  /-- No method is seen in the state in which rules were applied to a copy, unless the
  program came with it. -/
  unseen :
    ∀ numbers method,
      (afterAll program builds).methodAt? numbers = some method →
        method.state = .rulesApplied → program.methodAt? numbers = some method
  /-- A build fails if a target with rules names a committed method. If the targets before it
  are staged, this is why it fails. -/
  refused :
    ∀ (rulebook : Rulebook Note) plan before target rule others after place method,
      plan.targets = before ++ (target, rule :: others) :: after →
        Lookup.searchMethod (afterAll program builds) target.type target.method = .ok place →
          (afterAll program builds).method? place = some method →
            method.state = .committed →
              ∃ error,
                (run (afterAll program builds) rulebook plan).result = .error error ∧
                  ∀ copies progress,
                    unknownRule? rulebook plan = none →
                      Staging.stageAll rulebook before []
                          ⟨.ofProgram (afterAll program builds), []⟩ = (.ok copies, progress) →
                        error = ⟨rule.rule, target, .alreadyCommitted target.text⟩

/-- Whatever builds are made, what they commit is final. -/
theorem finality_of_builds (program : Program) (builds : List (Rulebook Note × Plan)) :
    Finality program builds where
  final := by
    intro more numbers method found committed
    rw [afterAll, List.foldl_append]
    rcases (advances_afterAll _ more).forward found with ⟨now, nowFound, advanced⟩
    rw [advanced.eq_of_committed committed] at nowFound
    exact nowFound
  started := by
    intro numbers method found unpatched
    rcases (advances_afterAll program builds).forward found with ⟨now, nowFound, advanced⟩
    refine ⟨now, nowFound, ?_⟩
    cases advanced with
    | same => exact Or.inl ⟨unpatched, rfl⟩
    | committed body _ => exact Or.inr rfl
  unseen := by
    intro numbers method found applied
    rcases (advances_afterAll program builds).backward found with
      ⟨earlier, earlierFound, advanced⟩
    cases advanced with
    | same => exact earlierFound
    | committed body _ => cases applied
  refused := by
    intro rulebook plan before target rule others after place method targets named found
      committed
    rcases exists_error_of_committed rulebook targets named found committed with
      ⟨error, failed⟩
    refine ⟨error, failed, ?_⟩
    intro copies progress known staged
    have refusal :=
      stageAll_of_committed rule others after named found committed staged
    rw [← targets] at refusal
    have runEq :
        (run (afterAll program builds) rulebook plan).result =
          .error ⟨rule.rule, target, .alreadyCommitted target.text⟩ := by
      simp [run, known, refusal, bind, Except.bind]
    rw [runEq] at failed
    exact (Except.error.inj failed).symm

/-- The second of two builds with one plan finds its method committed. It fails, and the
method stays as the first one left it. -/
theorem finality_of_builds_repeated :
    let method : MethodDecl := ⟨"f", "void", [], some ⟨[], [], .empty 0⟩, [], .unpatched⟩
    let program : Program := ⟨[⟨"m", [⟨"T", [], [method]⟩]⟩]⟩
    let rulebook : Rulebook Unit := ⟨[("first", addReturn (.ok ()))]⟩
    let target : MethodKey := ⟨"T", "f"⟩
    let plan : Plan := ⟨[(target, [⟨"first", .null⟩])]⟩
    let reached := afterAll program [(rulebook, plan)]
    ∃ patched,
      reached.methodAt? (0, 0, 0) = some patched ∧ patched.state = .committed ∧
        (afterAll program [(rulebook, plan), (rulebook, plan)]).methodAt? (0, 0, 0) =
            some patched ∧
          ∃ error,
            (run reached rulebook plan).result = .error error ∧
              error = ⟨"first", target, .alreadyCommitted target.text⟩ := by
  intro method program rulebook target plan reached
  have finality := finality_of_builds program [(rulebook, plan)]
  have states :
      (reached.methodAt? (0, 0, 0)).map MethodDecl.state = some .committed := by
    decide +kernel
  rcases Option.map_eq_some_iff.mp states with ⟨patched, found, committed⟩
  have place : reached.method? ⟨⟨0, 0⟩, 0⟩ = some patched := by
    rw [Program.method?_eq]
    exact found
  have named : Staging.names reached ⟨⟨0, 0⟩, 0⟩ target = true := by
    decide +kernel
  rcases finality.refused rulebook plan [] target ⟨"first", .null⟩ [] [] _ patched rfl
    (Staging.names_iff.mp named) place committed with ⟨error, failed, refused⟩
  exact ⟨patched, found, committed, finality.final [(rulebook, plan)] _ _ found committed,
    error, failed, refused [] _ rfl rfl⟩

end Build

end BytecodePatch
