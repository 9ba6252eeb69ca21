import BytecodePatch.Proofs.Body.Tags
import BytecodePatch.Proofs.Build.Run
import BytecodePatch.Proofs.Program.Questions

/-!
# The order of targets

Targets that name different methods may stand in any order in a plan. What the rules of a
target make of its method does not depend on the targets before it: its copy is new, and the
answers that others left in the lookup never show. So the same targets in another order are
carried out with the same effect, and the counters end up the same.

Rules may give new code an identity that was never used before, which two builds do not choose
alike. Two rulebooks are compared, therefore, whose rules are alike up to such identities.
-/

namespace BytecodePatch

variable {Note ε α β : Type} {program : Program} {same : Body → Body → Prop}
variable {rulebook first second : Rulebook Note}

/-! ## Rules that are alike -/

/-- Two verdicts that are both failures, or leave bodies that count as the same. -/
structure Verdict.Alike (same : Body → Body → Prop) (verdict other : Verdict Note) : Prop where
  outcome : verdict.outcome = .ok () ↔ other.outcome = .ok ()
  body : verdict.outcome = .ok () → same verdict.body other.body

/-- Two rulebooks with the same names. Their rules work alike on bodies that count as the
same: they ask the same questions as long as the answers are the same, never look at the
counters, and leave bodies that count as the same. Bodies may count as the same only if they
do so up to the identity of their code. -/
structure Rulebook.Alike (same : Body → Body → Prop) (first second : Rulebook Note) : Prop where
  reflexive : ∀ body, same body body
  untagged : ∀ body other, same body other → body.untagged = other.untagged
  contains : ∀ name, first.contains name = second.contains name
  rules :
    ∀ name rule other,
      first.find? name = some rule →
        second.find? name = some other →
          ∀ task body,
            same task.body body →
              Inquiry.Alike (Verdict.Alike same) (rule task) (other { task with body })

theorem Rulebook.find?_singleton
    (name : String) (rule : Rule Note) (other : String) :
    (⟨[(name, rule)]⟩ : Rulebook Note).find? other =
      if other = name then some rule else none := by
  rw [Rulebook.find?, List.lookup_cons]
  by_cases same : other = name
  · simp [same]
  · simp [same, beq_eq_false_iff_ne.mpr same]

/-- A rulebook is alike to itself if no rule looks at the counters. -/
theorem Rulebook.alike_of_uncounted
    (uncounted :
      ∀ name rule task, rulebook.find? name = some rule → (rule task).Uncounted) :
    rulebook.Alike Eq rulebook where
  reflexive _ := rfl
  untagged _ _ equal := congrArg Body.untagged equal
  contains _ := rfl
  rules := by
    rintro name rule other found otherFound task _ rfl
    obtain rfl := Option.some.inj (found.symm.trans otherFound)
    exact (uncounted name rule task found).alike.mono fun verdict _ equal =>
      equal ▸ ⟨Iff.rfl, fun _ => rfl⟩

namespace Staged

/-- Two copies that differ in nothing but bodies that count as the same. -/
def Alike (same : Body → Body → Prop) (staged other : Staged) : Prop :=
  ∃ body, same staged.body body ∧ other = { staged with body }

def untagged (staged : Staged) : Staged :=
  { staged with body := staged.body.untagged }

end Staged

namespace Staging

/-! ## Steps that do not depend on what was asked before -/

/-- A step that fails, whatever was asked before it. -/
def Fails (program : Program) (step : Progress Note → Except ε α × Progress Note) : Prop :=
  ∀ progress,
    (Lookup.ofProgram program).Reaches progress.lookup →
      ∃ error further, step progress = (.error error, further)

/-- A step that asks some questions and comes to a result, whatever was asked before it. -/
def Yields
    (program : Program) (step : Progress Note → Except ε α × Progress Note) (result : α)
    (queries : List Lookup.Query) : Prop :=
  ∀ progress,
    (Lookup.ofProgram program).Reaches progress.lookup →
      ∃ log, step progress = (.ok result, ⟨progress.lookup.askAll queries, log⟩)

/-- Two steps that both fail, or ask the same questions and come to related results. -/
def Agree
    (program : Program) (related : α → α → Prop)
    (step other : Progress Note → Except ε α × Progress Note) : Prop :=
  (Fails program step ∧ Fails program other) ∨
    ∃ result otherResult queries,
      related result otherResult ∧
        Yields program step result queries ∧ Yields program other otherResult queries

/-! ## One copy -/

section Copy

variable {staged : Staged} {target : MethodKey} {application : Application}
  {rule : Rule Note} {verdict : Verdict Note} {queries : List Lookup.Query}

theorem yields_applyRule
    (fresh : application.rule ∉ staged.rules)
    (found : rulebook.find? application.rule = some rule)
    (runs :
      ∀ lookup,
        (Lookup.ofProgram program).Reaches lookup →
          (rule ⟨target, program, application.argument, staged.body⟩).run lookup =
            (verdict, lookup.askAll queries))
    (succeeded : verdict.outcome = .ok ()) (verified : verdict.body.code.verify = .ok ()) :
    Yields program (applyRule rulebook target application staged)
      { staged with
        body := verdict.body
        rules := staged.rules ++ [application.rule]
        state := .rulesApplied } queries := by
  intro progress reached
  have sameProgram : progress.lookup.program = program := reached.program_eq
  simp [applyRule, fresh, found, sameProgram, runs _ reached, succeeded, verified]

theorem fails_applyRule
    (found : rulebook.find? application.rule = some rule)
    (runs :
      ∀ lookup,
        (Lookup.ofProgram program).Reaches lookup →
          (rule ⟨target, program, application.argument, staged.body⟩).run lookup =
            (verdict, lookup.askAll queries))
    (failed : ¬(verdict.outcome = .ok () ∧ verdict.body.code.verify = .ok ())) :
    Fails program (applyRule rulebook target application staged) := by
  intro progress reached
  have sameProgram : progress.lookup.program = program := reached.program_eq
  by_cases repeated : application.rule ∈ staged.rules
  · simp [applyRule, repeated]
  · cases outcome : verdict.outcome with
    | error error => simp [applyRule, repeated, found, sameProgram, runs _ reached, outcome]
    | ok _ =>
        cases verified : verdict.body.code.verify with
        | error rejection =>
            simp [applyRule, repeated, found, sameProgram, runs _ reached, outcome, verified]
        | ok _ => exact absurd ⟨outcome, verified⟩ failed

/-- A rule that is missing in a rulebook, or was run on the copy before. -/
theorem fails_applyRule_of_unfit
    (unfit : application.rule ∈ staged.rules ∨ rulebook.find? application.rule = none) :
    Fails program (applyRule rulebook target application staged) := by
  intro progress _
  by_cases repeated : application.rule ∈ staged.rules
  · simp [applyRule, repeated]
  · have missing := unfit.resolve_left repeated
    simp [applyRule, repeated, missing]

end Copy

/-- Rules that are alike carry copies that are alike on to copies that are alike. -/
theorem agree_applyRule
    (program : Program) (alike : first.Alike same second) {staged other : Staged}
    (copies : staged.Alike same other) (target : MethodKey) (application : Application) :
    Agree program (fun next otherNext => next.Alike same otherNext ∧ next.method = staged.method)
      (applyRule first target application staged)
      (applyRule second target application other) := by
  rcases copies with ⟨body, related, rfl⟩
  by_cases repeated : application.rule ∈ staged.rules
  · exact Or.inl
      ⟨fails_applyRule_of_unfit (Or.inl repeated), fails_applyRule_of_unfit (Or.inl repeated)⟩
  · have known := alike.contains application.rule
    unfold Rulebook.contains at known
    cases found : first.find? application.rule with
    | none =>
        rw [found, Option.isSome_none, eq_comm, Option.isSome_eq_false_iff,
          Option.isNone_iff_eq_none] at known
        exact Or.inl
          ⟨fails_applyRule_of_unfit (Or.inr found), fails_applyRule_of_unfit (Or.inr known)⟩
    | some rule =>
        rw [found, Option.isSome_some, eq_comm, Option.isSome_iff_exists] at known
        rcases known with ⟨otherRule, otherFound⟩
        have inquiries :=
          alike.rules _ rule otherRule found otherFound
            ⟨target, program, application.argument, staged.body⟩ body related
        rcases inquiries.exists_results program with
          ⟨verdict, otherVerdict, queries, verdicts, runs⟩
        have firstRuns := fun lookup reached => (runs lookup reached).1
        have secondRuns := fun lookup reached => (runs lookup reached).2
        by_cases accepted : verdict.outcome = .ok () ∧ verdict.body.code.verify = .ok ()
        · rcases accepted with ⟨succeeded, verified⟩
          have bodies := verdicts.body succeeded
          have otherVerified :=
            (Body.verify_iff_of_untagged_eq (alike.untagged _ _ bodies)).mp verified
          refine Or.inr ⟨_, _, queries, ?_,
            yields_applyRule repeated found firstRuns succeeded verified,
            yields_applyRule repeated otherFound secondRuns (verdicts.outcome.mp succeeded)
              otherVerified⟩
          exact ⟨⟨_, bodies, rfl⟩, rfl⟩
        · refine Or.inl ⟨fails_applyRule found firstRuns accepted,
            fails_applyRule otherFound secondRuns ?_⟩
          rintro ⟨otherSucceeded, otherVerified⟩
          have succeeded := verdicts.outcome.mpr otherSucceeded
          have bodies := alike.untagged _ _ (verdicts.body succeeded)
          exact accepted ⟨succeeded, (Body.verify_iff_of_untagged_eq bodies).mpr otherVerified⟩

theorem fails_applyRules_cons
    {target : MethodKey} {application : Application} {applications : List Application}
    {staged : Staged}
    (failed : Fails program (applyRule rulebook target application staged)) :
    Fails program (applyRules rulebook target (application :: applications) staged) := by
  intro progress reached
  rcases failed progress reached with ⟨error, further, failedEq⟩
  rw [applyRules, failedEq]
  exact ⟨_, _, rfl⟩

/-- After a first rule that succeeds, it is up to the others how the rules of a target end. -/
theorem applyRules_cons_of_yields
    {target : MethodKey} {application : Application} (applications : List Application)
    {staged next : Staged} {queries : List Lookup.Query}
    (made : Yields program (applyRule rulebook target application staged) next queries) :
    (Fails program (applyRules rulebook target applications next) →
      Fails program (applyRules rulebook target (application :: applications) staged)) ∧
      ∀ last others,
        Yields program (applyRules rulebook target applications next) last others →
          Yields program (applyRules rulebook target (application :: applications) staged) last
            (queries ++ others) := by
  constructor
  · intro failed progress reached
    rcases made progress reached with ⟨log, madeEq⟩
    rcases failed ⟨progress.lookup.askAll queries, log⟩
        (reached.trans (Lookup.reaches_askAll _ _)) with ⟨error, further, failedEq⟩
    rw [applyRules, madeEq]
    exact ⟨error, further, failedEq⟩
  · intro last others yielded progress reached
    rcases made progress reached with ⟨log, madeEq⟩
    rcases yielded ⟨progress.lookup.askAll queries, log⟩
        (reached.trans (Lookup.reaches_askAll _ _)) with ⟨lastLog, lastEq⟩
    rw [applyRules, madeEq, Lookup.askAll_append]
    exact ⟨lastLog, lastEq⟩

theorem agree_applyRules
    (program : Program) (alike : first.Alike same second) (target : MethodKey)
    (applications : List Application)
    {staged other : Staged} (copies : staged.Alike same other) :
    Agree program (fun next otherNext => next.Alike same otherNext ∧ next.method = staged.method)
      (applyRules first target applications staged)
      (applyRules second target applications other) := by
  induction applications generalizing staged other with
  | nil => exact Or.inr ⟨staged, other, [], ⟨copies, rfl⟩, fun _ _ => ⟨_, rfl⟩, fun _ _ => ⟨_, rfl⟩⟩
  | cons application applications inductionHypothesis =>
      rcases agree_applyRule program alike copies target application with
        ⟨failed, otherFailed⟩ | ⟨next, otherNext, queries, ⟨nexts, sameMethod⟩, made, otherMade⟩
      · exact Or.inl ⟨fails_applyRules_cons failed, fails_applyRules_cons otherFailed⟩
      · have after := applyRules_cons_of_yields applications made
        have otherAfter := applyRules_cons_of_yields applications otherMade
        rcases inductionHypothesis nexts with
          ⟨failed, otherFailed⟩ | ⟨last, otherLast, others, ⟨lasts, lastMethod⟩, rest, otherRest⟩
        · exact Or.inl ⟨after.1 failed, otherAfter.1 otherFailed⟩
        · exact Or.inr ⟨last, otherLast, queries ++ others, ⟨lasts, lastMethod.trans sameMethod⟩,
            after.2 last others rest, otherAfter.2 otherLast others otherRest⟩

/-! ## One target -/

/-- No copy is that of the method that a target names. -/
def Fresh (program : Program) (target : MethodKey) (copies : List Staged) : Prop :=
  ∀ staged ∈ copies, names program staged.method target = false

theorem fresh_nil (target : MethodKey × List Application) : Fresh program target.1 [] :=
  fun _ member => absurd member List.not_mem_nil

/-- A target that cannot be staged, whatever was staged before. -/
def Refuses
    (rulebook : Rulebook Note) (program : Program)
    (target : MethodKey × List Application) : Prop :=
  ∀ copies,
    Fresh program target.1 copies → Fails program (stageAll rulebook [target] copies)

/-- What a target adds to the copies, and asks for, whatever was staged before. -/
structure Adds
    (rulebook : Rulebook Note) (program : Program) (target : MethodKey × List Application)
    (added : List Staged) (queries : List Lookup.Query) : Prop where
  named : ∀ staged ∈ added, names program staged.method target.1 = true
  yields :
    ∀ copies,
      Fresh program target.1 copies →
        Yields program (stageAll rulebook [target] copies) (copies ++ added) queries

theorem put_of_absent
    {staged : Staged} :
    ∀ {copies : List Staged},
      (∀ other ∈ copies, other.method ≠ staged.method) → put staged copies = copies ++ [staged]
  | [], _ => rfl
  | other :: others, absent => by
      rw [put, if_neg (absent other List.mem_cons_self), List.cons_append,
        put_of_absent fun kept member => absent kept (List.mem_cons_of_mem other member)]

section Target

variable {key : MethodKey} {rule : Application} {others : List Application}
  {place : MemberPlace} {staged : Staged} {copies : List Staged}

theorem Fresh.absent
    (fresh : Fresh program key copies)
    (named : Lookup.searchMethod program key.type key.method = .ok place) :
    ∀ other ∈ copies, other.method ≠ place := by
  intro other member samePlace
  have notNamed := fresh other member
  rw [samePlace, names_iff.mpr named] at notNamed
  cases notNamed

/-- A target is looked up by one question, and then its rules run on a new copy. -/
theorem stageAll_singleton
    {progress : Progress Note}
    (fresh : Fresh program key copies)
    (reached : (Lookup.ofProgram program).Reaches progress.lookup) :
    stageAll rulebook [(key, rule :: others)] copies progress =
      let further : Progress Note :=
        ⟨progress.lookup.askAll [⟨.method, key.type, key.method⟩], progress.log⟩
      match
        (Lookup.searchMethod program key.type key.method).bind fun place =>
          copyOf program place key with
      | .error error => (.error ⟨rule.rule, key, error⟩, further)
      | .ok staged =>
          match applyRules rulebook key (rule :: others) staged further with
          | (.error error, last) => (.error error, last)
          | (.ok next, last) => (.ok (put next copies), last) := by
  have answered :
      (progress.lookup.askMethod key.type key.method).1 =
        Lookup.searchMethod program key.type key.method :=
    reached.askMethod_eq key.type key.method
  have sameProgram :
      (progress.lookup.askMethod key.type key.method).2.program = program :=
    (reached.trans (Lookup.reaches_askMethod ..)).program_eq
  have further :
      (progress.lookup.askMethod key.type key.method).2 =
        progress.lookup.askAll [⟨.method, key.type, key.method⟩] := rfl
  cases named : Lookup.searchMethod program key.type key.method with
  | error error => simp [stageAll, stageTarget, answered, further, named, Except.bind]
  | ok place =>
      have absent : copies.find? (fun staged => staged.method = place) = none := by
        rw [List.find?_eq_none]
        intro other member samePlace
        exact fresh.absent named other member (of_decide_eq_true samePlace)
      rw [further] at sameProgram
      simp only [stageAll, stageTarget, answered, further, named, Except.bind, findOrCopy,
        absent, sameProgram]
      cases copyOf program place key with
      | error error => rfl
      | ok staged =>
          dsimp only
          cases applyRules rulebook key (rule :: others) staged
              ⟨progress.lookup.askAll [⟨.method, key.type, key.method⟩], progress.log⟩ with
          | mk result last => cases result <;> rfl

theorem refuses_of_no_copy
    {error : PatchError}
    (refused :
      ((Lookup.searchMethod program key.type key.method).bind fun place =>
        copyOf program place key) = .error error) :
    Refuses rulebook program (key, rule :: others) := by
  intro copies fresh progress reached
  rw [stageAll_singleton fresh reached, refused]
  exact ⟨_, _, rfl⟩

theorem refuses_of_fails
    (made :
      ((Lookup.searchMethod program key.type key.method).bind fun place =>
        copyOf program place key) = .ok staged)
    (failed : Fails program (applyRules rulebook key (rule :: others) staged)) :
    Refuses rulebook program (key, rule :: others) := by
  intro copies fresh progress reached
  rw [stageAll_singleton fresh reached, made]
  dsimp only
  rcases failed ⟨progress.lookup.askAll [⟨.method, key.type, key.method⟩], progress.log⟩
      (reached.trans (Lookup.reaches_askAll _ _)) with ⟨error, last, failedEq⟩
  rw [failedEq]
  exact ⟨_, _, rfl⟩

theorem adds_of_yields
    {next : Staged} {queries : List Lookup.Query}
    (named : Lookup.searchMethod program key.type key.method = .ok place)
    (made : copyOf program place key = .ok staged) (sameMethod : next.method = staged.method)
    (yielded : Yields program (applyRules rulebook key (rule :: others) staged) next queries) :
    Adds rulebook program (key, rule :: others) [next]
      (⟨.method, key.type, key.method⟩ :: queries) := by
  have placed : next.method = place := by
    rcases copyOf_eq_ok_iff.mp made with ⟨_, _, _, _, _, rfl⟩
    exact sameMethod
  constructor
  · intro other member
    rw [List.mem_singleton.mp member, placed]
    exact names_iff.mpr named
  · intro copies fresh progress reached
    have found :
        ((Lookup.searchMethod program key.type key.method).bind fun place =>
          copyOf program place key) = .ok staged := by
      rw [named]
      exact made
    rw [stageAll_singleton fresh reached, found]
    dsimp only
    rcases yielded ⟨progress.lookup.askAll [⟨.method, key.type, key.method⟩], progress.log⟩
        (reached.trans (Lookup.reaches_askAll _ _)) with ⟨log, yieldedEq⟩
    rw [yieldedEq]
    refine ⟨log, ?_⟩
    dsimp only
    rw [put_of_absent (placed ▸ fresh.absent named), ← Lookup.askAll_append]
    rfl

end Target

/-- A target is refused under both rulebooks, or adds the same up to the identities of code and
asks the same questions. -/
theorem refuses_or_adds
    (program : Program) (alike : first.Alike same second)
    (target : MethodKey × List Application) :
    (Refuses first program target ∧ Refuses second program target) ∨
      ∃ added otherAdded queries,
        added.map Staged.untagged = otherAdded.map Staged.untagged ∧
          Adds first program target added queries ∧
            Adds second program target otherAdded queries := by
  rcases target with ⟨key, _ | ⟨rule, others⟩⟩
  · have nothing (rulebook : Rulebook Note) : Adds rulebook program (key, []) [] [] := by
      refine ⟨fun _ member => absurd member List.not_mem_nil, ?_⟩
      intro copies _ progress _
      rw [List.append_nil]
      exact ⟨progress.log, rfl⟩
    exact Or.inr ⟨[], [], [], rfl, nothing first, nothing second⟩
  · cases named : Lookup.searchMethod program key.type key.method with
    | error error =>
        have refused :
            ((Lookup.searchMethod program key.type key.method).bind fun place =>
              copyOf program place key) = .error error := by
          rw [named]
          rfl
        exact Or.inl ⟨refuses_of_no_copy refused, refuses_of_no_copy refused⟩
    | ok place =>
        have start :
            ((Lookup.searchMethod program key.type key.method).bind fun place =>
              copyOf program place key) = copyOf program place key := by
          rw [named]
          rfl
        cases made : copyOf program place key with
        | error error =>
            have refused := start.trans made
            exact Or.inl ⟨refuses_of_no_copy refused, refuses_of_no_copy refused⟩
        | ok staged =>
            have copies : staged.Alike same staged := ⟨staged.body, alike.reflexive _, rfl⟩
            rcases agree_applyRules program alike key (rule :: others) copies with
              ⟨failed, otherFailed⟩ |
                ⟨next, _, queries, ⟨⟨body, related, rfl⟩, sameMethod⟩, yielded, otherYielded⟩
            · have found := start.trans made
              exact Or.inl ⟨refuses_of_fails found failed, refuses_of_fails found otherFailed⟩
            · have otherMethod : ({ next with body } : Staged).method = staged.method :=
                sameMethod
              refine Or.inr ⟨_, _, _, ?_, adds_of_yields named made sameMethod yielded,
                adds_of_yields named made otherMethod otherYielded⟩
              simp [Staged.untagged, alike.untagged _ _ related]

/-! ## All targets -/

/-- Two targets that do not name one method. -/
def Apart (program : Program) (target other : MethodKey × List Application) : Prop :=
  ∀ place, ¬(names program place target.1 = true ∧ names program place other.1 = true)

theorem Apart.symm
    {target other : MethodKey × List Application} (apart : Apart program target other) :
    Apart program other target :=
  fun place ⟨named, otherNamed⟩ => apart place ⟨otherNamed, named⟩

theorem Fresh.append
    {target other : MethodKey × List Application} {copies added : List Staged}
    (fresh : Fresh program other.1 copies) (apart : Apart program target other)
    (named : ∀ staged ∈ added, names program staged.method target.1 = true) :
    Fresh program other.1 (copies ++ added) := by
  intro staged member
  rcases List.mem_append.mp member with earlier | new
  · exact fresh staged earlier
  · rw [Bool.eq_false_iff]
    exact fun otherNamed => apart staged.method ⟨named staged new, otherNamed⟩

/-- Targets that do not name one method twice add to the copies what each of them adds. -/
theorem yields_stageAll
    {added : MethodKey × List Application → List Staged}
    {asked : MethodKey × List Application → List Lookup.Query} :
    ∀ {targets : List (MethodKey × List Application)} {copies : List Staged},
      targets.Pairwise (Apart program) →
        (∀ target ∈ targets, Fresh program target.1 copies) →
          (∀ target ∈ targets, Adds rulebook program target (added target) (asked target)) →
            Yields program (stageAll rulebook targets copies)
              (copies ++ targets.flatMap added) (targets.flatMap asked)
  | [], copies, _, _, _ => by
      intro progress _
      rw [List.flatMap_nil, List.append_nil]
      exact ⟨progress.log, rfl⟩
  | target :: targets, copies, apart, fresh, adds => by
      rcases List.pairwise_cons.mp apart with ⟨headApart, restApart⟩
      rcases List.forall_mem_cons.mp fresh with ⟨headFresh, restFresh⟩
      rcases List.forall_mem_cons.mp adds with ⟨headAdds, restAdds⟩
      have stillFresh : ∀ other ∈ targets, Fresh program other.1 (copies ++ added target) :=
        fun other member =>
          (restFresh other member).append (headApart other member) headAdds.named
      intro progress reached
      rcases headAdds.yields copies headFresh progress reached with ⟨log, headEq⟩
      rcases yields_stageAll restApart stillFresh restAdds
          ⟨progress.lookup.askAll (asked target), log⟩
          (reached.trans (Lookup.reaches_askAll _ _)) with ⟨last, restEq⟩
      refine ⟨last, ?_⟩
      rw [← List.singleton_append, stageAll_append, headEq]
      dsimp only
      rw [restEq, List.append_assoc, ← Lookup.askAll_append]
      rfl

/-- One target that is refused makes the whole staging fail. -/
theorem fails_stageAll :
    ∀ {targets : List (MethodKey × List Application)} {copies : List Staged},
      targets.Pairwise (Apart program) →
        (∀ target ∈ targets, Fresh program target.1 copies) →
          (∀ target ∈ targets,
            Refuses rulebook program target ∨
              ∃ added queries, Adds rulebook program target added queries) →
            (∃ target ∈ targets, Refuses rulebook program target) →
              Fails program (stageAll rulebook targets copies)
  | [], copies, _, _, _, refused => by
      rcases refused with ⟨_, member, _⟩
      cases member
  | target :: targets, copies, apart, fresh, each, refused => by
      rcases List.pairwise_cons.mp apart with ⟨headApart, restApart⟩
      rcases List.forall_mem_cons.mp fresh with ⟨headFresh, restFresh⟩
      rcases List.forall_mem_cons.mp each with ⟨headEach, restEach⟩
      intro progress reached
      rw [← List.singleton_append, stageAll_append]
      rcases headEach with headRefused | ⟨added, queries, headAdds⟩
      · rcases headRefused copies headFresh progress reached with ⟨error, further, failedEq⟩
        rw [failedEq]
        exact ⟨error, further, rfl⟩
      · have stillFresh : ∀ other ∈ targets, Fresh program other.1 (copies ++ added) :=
          fun other member =>
            (restFresh other member).append (headApart other member) headAdds.named
        rcases headAdds.yields copies headFresh progress reached with ⟨log, headEq⟩
        have restRefused : ∃ other ∈ targets, Refuses rulebook program other := by
          rcases refused with ⟨other, member, otherRefused⟩
          rcases List.mem_cons.mp member with rfl | later
          · rcases otherRefused copies headFresh progress reached with ⟨_, _, failedEq⟩
            rw [failedEq] at headEq
            cases headEq
          · exact ⟨other, later, otherRefused⟩
        rw [headEq]
        exact fails_stageAll restApart stillFresh restEach restRefused _
          (reached.trans (Lookup.reaches_askAll _ _))

end Staging

namespace Build

variable {plan other : Plan}

/-! ## What is committed and reported -/

theorem untagged_commit (program : Program) (staged : Staged) :
    (commit program staged).untagged = commit program.untagged staged.untagged := by
  simp only [commit, Program.untagged, Program.modifyMethod_eq, Program.mapMethods_mapMethods]
  congr 1
  funext numbers method
  by_cases here : numbers = staged.method.numbers
  · simp [here, Staged.untagged]
  · simp [here, Staged.untagged]

theorem untagged_foldl_commit (copies : List Staged) (program : Program) :
    (copies.foldl commit program).untagged =
      (copies.map Staged.untagged).foldl commit program.untagged := by
  induction copies generalizing program with
  | nil => rfl
  | cons staged copies inductionHypothesis =>
      rw [List.foldl_cons, inductionHypothesis, untagged_commit, List.map_cons, List.foldl_cons]

/-- Copies of two methods may be committed in any order. -/
theorem commit_commit
    (program : Program) {staged other : Staged} (different : staged.method ≠ other.method) :
    commit (commit program staged) other = commit (commit program other) staged := by
  have apart : staged.method.numbers ≠ other.method.numbers :=
    fun equal => different (MemberPlace.numbers_inj.mp equal)
  simp only [commit, Program.modifyMethod_eq, Program.mapMethods_mapMethods]
  congr 1
  funext numbers method
  by_cases here : numbers = staged.method.numbers
  · simp [here, apart]
  · simp [here]

theorem foldl_commit_of_perm
    {copies others : List Staged} (reordered : copies.Perm others)
    (distinct : (copies.map Staged.method).Nodup) (program : Program) :
    copies.foldl commit program = others.foldl commit program := by
  apply reordered.foldl_eq'
  intro staged member other otherMember current
  by_cases same : staged = other
  · rw [same]
  · apply commit_commit
    exact fun sameMethod => same (List.inj_on_of_nodup_map distinct member otherMember sameMethod)

theorem reportOn_untagged (staged : Staged) :
    reportOn staged.untagged staged.untagged.body.image = reportOn staged staged.body.image := by
  have image : staged.untagged.body.image = staged.body.image := staged.body.image_untagged
  rw [image]
  rfl

/-! ## Builds -/

/-- Two builds with one effect. Both fail or both succeed, they leave the same program up to
the identities of new code, and they report the same up to the order of the targets. -/
structure SameEffect (outcome other : Outcome Note) : Prop where
  succeeded :
    (∃ report, outcome.result = .ok report) ↔ ∃ report, other.result = .ok report
  program : outcome.program.untagged = other.program.untagged
  targets :
    ∀ report otherReport,
      outcome.result = .ok report →
        other.result = .ok otherReport → report.targets.Perm otherReport.targets
  counts :
    ∀ report otherReport,
      outcome.result = .ok report →
        other.result = .ok otherReport → report.counts = otherReport.counts

theorem sameEffect_of_errors
    {error otherError : BuildError} {log otherLog : List (Invocation Note)} :
    SameEffect ⟨.error error, program, log⟩ ⟨.error otherError, program, otherLog⟩ := by
  constructor <;> simp

/-- Copies of different methods in two orders, the same up to the identities of code. -/
theorem sameEffect_of_copies
    {copies others : List Staged} {counts : Lookup.Counts}
    {log otherLog : List (Invocation Note)}
    (reordered : (copies.map Staged.untagged).Perm (others.map Staged.untagged))
    (distinct : (copies.map Staged.method).Nodup) :
    SameEffect
      ⟨.ok ⟨copies.map fun staged => reportOn staged staged.body.image, counts⟩,
        copies.foldl commit program, log⟩
      ⟨.ok ⟨others.map fun staged => reportOn staged staged.body.image, counts⟩,
        others.foldl commit program, otherLog⟩ where
  succeeded := by simp
  program := by
    have distinctUntagged : ((copies.map Staged.untagged).map Staged.method).Nodup := by
      rw [List.map_map]
      exact distinct
    rw [untagged_foldl_commit, untagged_foldl_commit,
      foldl_commit_of_perm reordered distinctUntagged]
  targets := by
    rintro _ _ ⟨⟩ ⟨⟩
    simpa [Function.comp_def, reportOn_untagged] using
      reordered.map fun staged => reportOn staged staged.body.image
  counts := by
    rintro _ _ ⟨⟩ ⟨⟩
    rfl

theorem unknownRule?_eq_none_of_perm
    (contains : ∀ name, first.contains name = second.contains name)
    (reordered : plan.targets.Perm other.targets) :
    unknownRule? first plan = none ↔ unknownRule? second other = none := by
  have entries : plan.entries.Perm other.entries := reordered.flatMap_right _
  simp only [unknownRule?_eq_none_iff, entries.mem_iff, contains]

/-- A build with a target that is refused fails. -/
theorem run_of_refused
    (known : unknownRule? rulebook plan = none)
    (apart : plan.targets.Pairwise (Staging.Apart program))
    (each :
      ∀ target ∈ plan.targets,
        Staging.Refuses rulebook program target ∨
          ∃ added queries, Staging.Adds rulebook program target added queries)
    (refused : ∃ target ∈ plan.targets, Staging.Refuses rulebook program target) :
    ∃ error log, run program rulebook plan = ⟨.error error, program, log⟩ := by
  have fails :=
    Staging.fails_stageAll apart (fun target _ => Staging.fresh_nil target) each refused
  obtain ⟨error, progress, failed⟩ := fails ⟨.ofProgram program, []⟩ .refl
  rw [run_of_known known, failed]
  exact ⟨error, progress.log, rfl⟩

/-- A build whose targets all add copies commits these copies, which are of different methods,
and reports on them. -/
theorem run_of_added
    {added : MethodKey × List Application → List Staged}
    {queries : MethodKey × List Application → List Lookup.Query}
    (known : unknownRule? rulebook plan = none)
    (apart : plan.targets.Pairwise (Staging.Apart program))
    (adds :
      ∀ target ∈ plan.targets,
        Staging.Adds rulebook program target (added target) (queries target)) :
    ((plan.targets.flatMap added).map Staged.method).Nodup ∧
      ∃ log,
        run program rulebook plan =
          ⟨.ok ⟨(plan.targets.flatMap added).map fun staged => reportOn staged staged.body.image,
              ((Lookup.ofProgram program).askAll (plan.targets.flatMap queries)).counts⟩,
            (plan.targets.flatMap added).foldl commit program, log⟩ := by
  have yields := Staging.yields_stageAll apart (fun target _ => Staging.fresh_nil target) adds
  obtain ⟨log, staged⟩ := yields ⟨.ofProgram program, []⟩ .refl
  refine ⟨(Staging.Copied.start.stageAll staged).distinct, log, ?_⟩
  rw [run_of_known known, staged]
  rfl

/-- Two builds that both refuse a target. -/
theorem sameEffect_of_refused
    (alike : first.Alike same second)
    (known : unknownRule? first plan = none) (otherKnown : unknownRule? second other = none)
    (apart : plan.targets.Pairwise (Staging.Apart program))
    (otherApart : other.targets.Pairwise (Staging.Apart program))
    (refused : ∃ target ∈ plan.targets, Staging.Refuses first program target)
    (otherRefused : ∃ target ∈ other.targets, Staging.Refuses second program target) :
    SameEffect (run program first plan) (run program second other) := by
  have each (target : MethodKey × List Application) :
      Staging.Refuses first program target ∨
        ∃ added queries, Staging.Adds first program target added queries := by
    obtain both | ⟨added, _, queries, _, adds, _⟩ :=
      Staging.refuses_or_adds program alike target
    · exact Or.inl both.1
    · exact Or.inr ⟨added, queries, adds⟩
  have otherEach (target : MethodKey × List Application) :
      Staging.Refuses second program target ∨
        ∃ added queries, Staging.Adds second program target added queries := by
    obtain both | ⟨_, added, queries, _, _, adds⟩ :=
      Staging.refuses_or_adds program alike target
    · exact Or.inl both.2
    · exact Or.inr ⟨added, queries, adds⟩
  obtain ⟨error, log, failed⟩ := run_of_refused known apart (fun target _ => each target) refused
  obtain ⟨otherError, otherLog, otherFailed⟩ :=
    run_of_refused otherKnown otherApart (fun target _ => otherEach target) otherRefused
  rw [failed, otherFailed]
  exact sameEffect_of_errors

/-- Two builds with the same targets in two orders. Every target adds the same copies in both,
up to the identities of code, and asks for the same. -/
theorem sameEffect_of_added
    (known : unknownRule? first plan = none) (otherKnown : unknownRule? second other = none)
    (apart : plan.targets.Pairwise (Staging.Apart program))
    (otherApart : other.targets.Pairwise (Staging.Apart program))
    (reordered : plan.targets.Perm other.targets)
    (each :
      ∀ target ∈ plan.targets, ∃ added otherAdded queries,
        added.map Staged.untagged = otherAdded.map Staged.untagged ∧
          Staging.Adds first program target added queries ∧
            Staging.Adds second program target otherAdded queries) :
    SameEffect (run program first plan) (run program second other) := by
  choose! added otherAdded queries sameAdded adds otherAdds using each
  obtain ⟨distinct, log, done⟩ := run_of_added known apart adds
  obtain ⟨-, otherLog, otherDone⟩ :=
    run_of_added otherKnown otherApart fun target member =>
      otherAdds target (reordered.mem_iff.mpr member)
  have copies :
      ((plan.targets.flatMap added).map Staged.untagged).Perm
        ((other.targets.flatMap otherAdded).map Staged.untagged) := by
    rw [List.map_flatMap, List.map_flatMap, List.flatMap_congr sameAdded]
    exact reordered.flatMap_right _
  have asked :
      ((Lookup.ofProgram program).askAll (plan.targets.flatMap queries)).counts =
        ((Lookup.ofProgram program).askAll (other.targets.flatMap queries)).counts :=
    (Lookup.alike_askAll_of_perm (reordered.flatMap_right _) _).counts_eq
  rw [done, otherDone, asked]
  exact sameEffect_of_copies copies distinct

/-- The targets of a plan that name different methods may stand in any order. -/
theorem sameEffect_of_reordered
    (program : Program) (alike : first.Alike same second)
    (apart : plan.targets.Pairwise (Staging.Apart program))
    (reordered : plan.targets.Perm other.targets) :
    SameEffect (run program first plan) (run program second other) := by
  have unknown := unknownRule?_eq_none_of_perm alike.contains reordered
  cases known : unknownRule? first plan with
  | some error =>
      rw [known] at unknown
      cases otherKnown : unknownRule? second other with
      | none => exact absurd (unknown.mpr otherKnown) (by simp)
      | some otherError =>
          simp only [run, known, otherKnown]
          exact sameEffect_of_errors
  | none =>
      have otherKnown := unknown.mp known
      have otherApart : other.targets.Pairwise (Staging.Apart program) :=
        (reordered.pairwise_iff fun apart => apart.symm).mp apart
      by_cases refused :
          ∃ target ∈ plan.targets,
            Staging.Refuses first program target ∧ Staging.Refuses second program target
      · obtain ⟨target, member, firstRefuses, secondRefuses⟩ := refused
        exact sameEffect_of_refused alike known otherKnown apart otherApart
          ⟨target, member, firstRefuses⟩ ⟨target, reordered.mem_iff.mp member, secondRefuses⟩
      · apply sameEffect_of_added known otherKnown apart otherApart reordered
        intro target member
        apply (Staging.refuses_or_adds program alike target).resolve_left
        exact fun refuses => refused ⟨target, member, refuses⟩

/-- A rule that looks a method up and puts new code, with the given identity, into the body. -/
def renew (tag : Nat) : Rule Unit :=
  fun task =>
    .ask ⟨.method, "T", "g"⟩ fun _ =>
      .done ⟨{ task.body with code := (Code.empty tag).link (.plain .ret) none }, .ok (), ()⟩

/-- Two methods get new code, whose identity is another one in the second build. The first
question for the method that the rule looks up is asked by a target or by the rule, depending
on the order. -/
theorem sameEffect_of_reordered_two_targets :
    let declare (name : String) : MethodDecl :=
      ⟨name, "void", [], some ⟨[], [], .empty 0⟩, [], .unpatched⟩
    let program : Program := ⟨[⟨"m", [⟨"T", [], [declare "f", declare "g"]⟩]⟩]⟩
    let rulebook (tag : Nat) : Rulebook Unit := ⟨[("renew", renew tag)]⟩
    let forward : Plan :=
      ⟨[(⟨"T", "f"⟩, [⟨"renew", .null⟩]), (⟨"T", "g"⟩, [⟨"renew", .null⟩])]⟩
    let backward : Plan :=
      ⟨[(⟨"T", "g"⟩, [⟨"renew", .null⟩]), (⟨"T", "f"⟩, [⟨"renew", .null⟩])]⟩
    (run program (rulebook 1) forward).result.isOk = true ∧
      SameEffect (run program (rulebook 1) forward) (run program (rulebook 1) backward) ∧
        SameEffect (run program (rulebook 1) forward) (run program (rulebook 2) backward) := by
  intro declare program rulebook forward backward
  have found (tag : Nat) (name : String) (rule : Rule Unit)
      (known : (rulebook tag).find? name = some rule) : rule = renew tag := by
    rw [Rulebook.find?_singleton] at known
    by_cases same : name = "renew"
    · rw [if_pos same] at known
      exact (Option.some.inj known).symm
    · rw [if_neg same] at known
      cases known
  have alike :
      (rulebook 1).Alike (fun body other => body.untagged = other.untagged) (rulebook 2) := by
    refine ⟨fun _ => rfl, fun _ _ => id, fun name => ?_, ?_⟩
    · rw [Rulebook.contains, Rulebook.contains, Rulebook.find?_singleton,
        Rulebook.find?_singleton]
      split <;> rfl
    · intro name rule other known otherKnown task body bodies
      rw [found 1 name rule known, found 2 name other otherKnown]
      refine .ask _ fun _ => .done ⟨Iff.rfl, fun _ => ?_⟩
      -- what is left of the old bodies is the types of their arguments and variables
      simp only [Body.untagged, Body.mk.injEq] at bodies ⊢
      exact ⟨bodies.1, bodies.2.1, by decide +kernel⟩
  have uncounted :
      ∀ name rule task, (rulebook 1).find? name = some rule → (rule task).Uncounted := by
    intro name rule task known
    rw [found 1 name rule known]
    exact .ask _ fun _ => .done _
  have apart : forward.targets.Pairwise (Staging.Apart program) := by
    simp only [forward, List.pairwise_pair]
    rintro place ⟨namedF, namedG⟩
    have placeF : Staging.names program ⟨⟨0, 0⟩, 0⟩ ⟨"T", "f"⟩ = true := by
      decide +kernel
    have placeG : Staging.names program ⟨⟨0, 0⟩, 1⟩ ⟨"T", "g"⟩ = true := by
      decide +kernel
    have same := (Staging.eq_of_names placeF namedF).trans (Staging.eq_of_names namedG placeG)
    simp at same
  have reordered : forward.targets.Perm backward.targets := List.Perm.swap _ _ _
  exact ⟨by decide +kernel,
    sameEffect_of_reordered program (Rulebook.alike_of_uncounted uncounted) apart reordered,
    sameEffect_of_reordered program alike apart reordered⟩

end Build

end BytecodePatch
