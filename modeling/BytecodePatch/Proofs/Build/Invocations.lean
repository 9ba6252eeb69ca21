import BytecodePatch.Proofs.Build.Run

/-!
# Rules run as planned

The log of a build lists the rules that were run. It goes along with the plan from its start,
one application after another, and ends with the plan or with the first failure. A rule runs
at most once on a method, also where several targets name the method: the second time it is
refused before it runs.
-/

namespace BytecodePatch

variable {Note : Type} {rulebook : Rulebook Note} {program : Program}

namespace Invocation

/-- The application that was carried out, under its target as in a plan. -/
def entry (invocation : Invocation Note) : MethodKey × Application :=
  (invocation.target, invocation.application)

/-- The method and the name of the rule that was run on it. -/
def onMethod (invocation : Invocation Note) : MemberPlace × String :=
  (invocation.method, invocation.application.rule)

end Invocation

namespace Staging

/-! ## One application -/

/-- All that the application of a rule can do. Either nothing is run, and a repeated rule is
the reason if there is one. Or the rule is run and logged, and fails with the error that it
gave or because of a branch, or succeeds and is noted in the copy. -/
theorem applyRule_cases
    (rulebook : Rulebook Note) (target : MethodKey) (application : Application)
    (staged : Staged) (progress : Progress Note) :
    (∃ error,
        applyRule rulebook target application staged progress = (.error error, progress) ∧
          (application.rule ∈ staged.rules →
            error = .ruleAlreadyApplied application.rule target.text)) ∨
      application.rule ∉ staged.rules ∧
        ∃ invocation : Invocation Note,
          invocation.entry = (target, application) ∧ invocation.method = staged.method ∧
            ∃ lookup,
              progress.lookup.Reaches lookup ∧
                ((∃ error,
                    applyRule rulebook target application staged progress =
                        (.error error, ⟨lookup, progress.log ++ [invocation]⟩) ∧
                      ∀ cause, invocation.outcome = .error cause → error = cause) ∨
                  ∃ next,
                    applyRule rulebook target application staged progress =
                        (.ok next, ⟨lookup, progress.log ++ [invocation]⟩) ∧
                      invocation.outcome = .ok () ∧ next.method = staged.method ∧
                        next.rules = staged.rules ++ [application.rule]) := by
  unfold applyRule
  by_cases repeated : application.rule ∈ staged.rules
  · simp [repeated]
  · cases found : rulebook.find? application.rule with
    | none => simp [repeated]
    | some rule =>
        cases ran :
          (rule ⟨target, progress.lookup.program, application.argument, staged.body⟩).run
            progress.lookup with
        | mk verdict lookup =>
            have asked :=
              Inquiry.reaches_run
                (rule ⟨target, progress.lookup.program, application.argument, staged.body⟩)
                progress.lookup
            rw [ran] at asked
            refine Or.inr ⟨repeated,
              ⟨target, staged.method, application, verdict.outcome, verdict.note⟩, rfl, rfl,
              lookup, asked, ?_⟩
            cases ended : verdict.outcome with
            | error error => simp [repeated, ran, ended]
            | ok _ =>
                cases verified : verdict.body.code.verify with
                | error rejection => simp [repeated, ran, ended, verified]
                | ok _ => simp [repeated, ran, ended, verified]

/-! ## The log -/

variable {entries : List (MethodKey × Application)} {copies : List Staged}

/-- A log goes along with applications. Each was carried out on the method that its target
names, and no rule twice on one method. -/
structure Traced
    (program : Program) (entries : List (MethodKey × Application))
    (log : List (Invocation Note)) : Prop where
  planned : log.map Invocation.entry = entries
  named : ∀ invocation ∈ log, names program invocation.method invocation.target = true
  once : (log.map Invocation.onMethod).Nodup

theorem Traced.snoc
    {log : List (Invocation Note)} {invocation : Invocation Note}
    (traced : Traced program entries log)
    (named : names program invocation.method invocation.target = true)
    (fresh : invocation.onMethod ∉ log.map Invocation.onMethod) :
    Traced program (entries ++ [invocation.entry]) (log ++ [invocation]) where
  planned := by rw [List.map_append, traced.planned, List.map_singleton]
  named := by
    intro other member
    rcases List.mem_append.mp member with earlier | last
    · exact traced.named other earlier
    · rw [List.mem_singleton.mp last]
      exact named
  once := by
    rw [List.map_append, List.map_singleton, ← List.concat_eq_append]
    exact traced.once.concat fresh

/-- The log after some applications, all of which succeeded. The copies know which rules were
run on their methods. -/
structure Logged
    (program : Program) (entries : List (MethodKey × Application)) (copies : List Staged)
    (progress : Progress Note) : Prop where
  reached : (Lookup.ofProgram program).Reaches progress.lookup
  distinct : (copies.map Staged.method).Nodup
  traced : Traced program entries progress.log
  succeeded : ∀ invocation ∈ progress.log, invocation.outcome = .ok ()
  recorded :
    ∀ invocation ∈ progress.log,
      ∃ staged ∈ copies,
        staged.method = invocation.method ∧ invocation.application.rule ∈ staged.rules

/-- The log after a failure at one of some applications. It goes along with those before it,
and perhaps with this one. If one that it lists has failed, that is the last one and the
cause. -/
structure Halted
    (program : Program) (entries : List (MethodKey × Application)) (error : BuildError)
    (log : List (Invocation Note)) : Prop where
  traced : ∃ done, done <+: entries ∧ Traced program done log
  failStop :
    ∀ before invocation after cause,
      log = before ++ invocation :: after →
        invocation.outcome = .error cause →
          after = [] ∧ error = ⟨invocation.application.rule, invocation.target, cause⟩
  charged :
    ∃ application, (error.target, application) ∈ entries ∧ application.rule = error.rule

theorem Halted.mono
    {more : List (MethodKey × Application)} {error : BuildError}
    {log : List (Invocation Note)}
    (halted : Halted program entries error log) (longer : entries <+: more) :
    Halted program more error log where
  traced := by
    rcases halted.traced with ⟨done, isPrefix, traced⟩
    exact ⟨done, isPrefix.trans longer, traced⟩
  failStop := halted.failStop
  charged := by
    rcases halted.charged with ⟨application, member, sameRule⟩
    exact ⟨application, longer.subset member, sameRule⟩

namespace Logged

variable {progress : Progress Note}

theorem start (program : Program) :
    Logged program [] [] (⟨.ofProgram program, []⟩ : Progress Note) where
  reached := .refl
  distinct := List.nodup_nil
  traced := ⟨rfl, fun _ member => absurd member List.not_mem_nil, List.nodup_nil⟩
  succeeded := fun _ member => absurd member List.not_mem_nil
  recorded := fun _ member => absurd member List.not_mem_nil

/-- Questions and new copies make no difference to the log. -/
theorem more
    {lookup : Lookup} {others : List Staged}
    (logged : Logged program entries copies progress)
    (asked : progress.lookup.Reaches lookup)
    (distinct : (others.map Staged.method).Nodup) (kept : copies ⊆ others) :
    Logged program entries others { progress with lookup } where
  reached := logged.reached.trans asked
  distinct := distinct
  traced := logged.traced
  succeeded := logged.succeeded
  recorded := by
    intro invocation member
    rcases logged.recorded invocation member with ⟨staged, stagedMember, recorded⟩
    exact ⟨staged, kept stagedMember, recorded⟩

/-- A target is found to name a method exactly if a search finds it. -/
theorem answered_iff
    {place : MemberPlace} {target : MethodKey}
    (logged : Logged program entries copies progress) :
    (progress.lookup.askMethod target.type target.method).1 = .ok place ↔
      names program place target = true := by
  rw [names_iff, logged.reached.askMethod_eq]

/-- A failure before the rule of an application is run. -/
theorem haltedBefore
    (logged : Logged program entries copies progress) (target : MethodKey)
    (application : Application) (cause : PatchError) :
    Halted program (entries ++ [(target, application)]) ⟨application.rule, target, cause⟩
      progress.log where
  traced := ⟨entries, List.prefix_append _ _, logged.traced⟩
  failStop := by
    intro before invocation after other logEq failed
    have succeeded := logged.succeeded invocation (by simp [logEq])
    rw [failed] at succeeded
    cases succeeded
  charged := ⟨application, by simp, rfl⟩

/-- A failure after the rule of an application was run. -/
theorem haltedAfter
    {invocation : Invocation Note} {cause : PatchError}
    (logged : Logged program entries copies progress)
    (traced :
      Traced program (entries ++ [invocation.entry]) (progress.log ++ [invocation]))
    (caused : ∀ other, invocation.outcome = .error other → cause = other) :
    Halted program (entries ++ [invocation.entry])
      ⟨invocation.application.rule, invocation.target, cause⟩
      (progress.log ++ [invocation]) where
  traced := ⟨_, List.prefix_rfl, traced⟩
  failStop := by
    intro before other after otherCause logEq failed
    -- all but the last invocation succeeded
    rcases List.eq_nil_or_concat after with rfl | ⟨front, last, rfl⟩
    · obtain ⟨_, same⟩ := List.append_inj' logEq rfl
      obtain rfl := List.singleton_inj.mp same
      exact ⟨rfl, by rw [caused otherCause failed]⟩
    · have cut : progress.log ++ [invocation] = (before ++ other :: front) ++ [last] := by
        simpa using logEq
      obtain ⟨earlier, _⟩ := List.append_inj' cut rfl
      have succeeded := logged.succeeded other (by simp [earlier])
      rw [failed] at succeeded
      cases succeeded
  charged := ⟨invocation.application, by simp [Invocation.entry], rfl⟩

/-- The copy of a method has noted every rule that was run on the method. -/
theorem mem_rules_of_run
    {staged : Staged} {rule : String}
    (logged : Logged program entries copies progress) (member : staged ∈ copies)
    (run : (staged.method, rule) ∈ progress.log.map Invocation.onMethod) :
    rule ∈ staged.rules := by
  rcases List.mem_map.mp run with ⟨invocation, logMember, same⟩
  obtain ⟨sameMethod, sameRule⟩ := Prod.mk.inj same
  rcases logged.recorded invocation logMember with ⟨other, otherMember, otherMethod, recorded⟩
  have same : other = staged :=
    List.inj_on_of_nodup_map logged.distinct otherMember member (otherMethod.trans sameMethod)
  exact sameRule ▸ same ▸ recorded

/-- A rule that was run and succeeded is noted in the copy. -/
theorem snoc
    {invocation : Invocation Note} {staged next : Staged} {lookup : Lookup}
    (logged : Logged program entries (put staged copies) progress)
    (distinct : (copies.map Staged.method).Nodup)
    (asked : progress.lookup.Reaches lookup)
    (traced :
      Traced program (entries ++ [invocation.entry]) (progress.log ++ [invocation]))
    (succeeded : invocation.outcome = .ok ())
    (sameMethod : invocation.method = staged.method)
    (nextMethod : next.method = staged.method)
    (nextRules : next.rules = staged.rules ++ [invocation.application.rule]) :
    Logged program (entries ++ [invocation.entry]) (put next copies)
      ⟨lookup, progress.log ++ [invocation]⟩ where
  reached := logged.reached.trans asked
  distinct := nodup_put distinct
  traced := traced
  succeeded := by
    intro other member
    rcases List.mem_append.mp member with earlier | last
    · exact logged.succeeded other earlier
    · rw [List.mem_singleton.mp last]
      exact succeeded
  recorded := by
    intro other member
    rcases List.mem_append.mp member with earlier | last
    · rcases logged.recorded other earlier with ⟨kept, keptMember, keptMethod, recorded⟩
      by_cases same : kept.method = staged.method
      · obtain rfl := eq_of_mem_put distinct keptMember same
        refine ⟨next, mem_put_self next copies, nextMethod.trans keptMethod, ?_⟩
        rw [nextRules]
        exact List.mem_append_left _ recorded
      · have stays := (mem_put_iff_of_ne same copies).mp keptMember
        rw [← nextMethod] at same
        exact ⟨kept, (mem_put_iff_of_ne same copies).mpr stays, keptMethod, recorded⟩
    · rw [List.mem_singleton.mp last]
      refine ⟨next, mem_put_self next copies, nextMethod.trans sameMethod.symm, ?_⟩
      simp [nextRules]

/-! ## Staging keeps the log -/

/-- One application, on the copy of its method. -/
theorem applyRule
    (rulebook : Rulebook Note) {target : MethodKey} {application : Application}
    {staged : Staged} (logged : Logged program entries (put staged copies) progress)
    (distinct : (copies.map Staged.method).Nodup)
    (named : names program staged.method target = true) :
    (∃ error further,
        Staging.applyRule rulebook target application staged progress =
            (.error error, further) ∧
          Halted program (entries ++ [(target, application)])
            ⟨application.rule, target, error⟩ further.log) ∨
      ∃ next further,
        Staging.applyRule rulebook target application staged progress = (.ok next, further) ∧
          next.method = staged.method ∧
            Logged program (entries ++ [(target, application)]) (put next copies) further := by
  rcases applyRule_cases rulebook target application staged progress with
    ⟨error, failed, _⟩ | ⟨absent, invocation, entryEq, sameMethod, lookup, asked, ended⟩
  · exact Or.inl ⟨error, progress, failed, logged.haltedBefore target application error⟩
  · obtain ⟨rfl, rfl⟩ := Prod.mk.inj entryEq
    have fresh : invocation.onMethod ∉ progress.log.map Invocation.onMethod := by
      intro run
      rw [Invocation.onMethod, sameMethod] at run
      exact absent (logged.mem_rules_of_run (mem_put_self staged copies) run)
    rw [← sameMethod] at named
    have traced := logged.traced.snoc named fresh
    rcases ended with ⟨error, failed, caused⟩ | ⟨next, done, succeeded, nextMethod, nextRules⟩
    · exact Or.inl ⟨error, _, failed, logged.haltedAfter traced caused⟩
    · exact Or.inr ⟨next, _, done, nextMethod,
        logged.snoc distinct asked traced succeeded sameMethod nextMethod nextRules⟩

/-- The applications of a target, one after another on the copy of its method. -/
theorem applyRules (rulebook : Rulebook Note) {target : MethodKey} :
    ∀ (applications : List Application) {entries : List (MethodKey × Application)}
      {staged : Staged} {progress : Progress Note},
      Logged program entries (put staged copies) progress →
        (copies.map Staged.method).Nodup →
          names program staged.method target = true →
            (∃ error further,
                Staging.applyRules rulebook target applications staged progress =
                    (.error error, further) ∧
                  Halted program (entries ++ entriesOf target applications) error
                    further.log) ∨
              ∃ next further,
                Staging.applyRules rulebook target applications staged progress =
                    (.ok next, further) ∧
                  next.method = staged.method ∧
                    Logged program (entries ++ entriesOf target applications)
                      (put next copies) further
  | [], entries, staged, progress, logged, _, _ => by
      refine Or.inr ⟨staged, progress, rfl, rfl, ?_⟩
      have nothing : entries ++ entriesOf target [] = entries := List.append_nil _
      rw [nothing]
      exact logged
  | application :: applications, entries, staged, progress, logged, distinct, named => by
      have cut :
          entries ++ entriesOf target (application :: applications) =
            (entries ++ [(target, application)]) ++ entriesOf target applications := by
        simp [entriesOf]
      rw [cut, Staging.applyRules]
      rcases logged.applyRule rulebook distinct named with
        ⟨error, further, failed, halted⟩ | ⟨next, further, done, sameMethod, nextLogged⟩
      · rw [failed]
        exact Or.inl ⟨_, further, rfl, halted.mono (List.prefix_append _ _)⟩
      · rw [done]
        rw [← sameMethod] at named
        rcases applyRules rulebook applications nextLogged distinct named with
          failure | ⟨last, final, rest, lastMethod, lastLogged⟩
        · exact Or.inl failure
        · exact Or.inr ⟨last, final, rest, lastMethod.trans sameMethod, lastLogged⟩

/-- The copy with which a target starts may stand among the copies. -/
theorem findOrCopy
    {place : MemberPlace} {target : MethodKey} {staged : Staged}
    (logged : Logged program entries copies progress)
    (made : Staging.findOrCopy program place target copies = .ok staged) :
    Logged program entries (put staged copies) progress := by
  refine logged.more .refl (nodup_put logged.distinct) ?_
  intro other member
  by_cases same : other.method = staged.method
  · rcases of_findOrCopy made with ⟨placed, kept | ⟨absent, _⟩⟩
    · rw [List.inj_on_of_nodup_map logged.distinct member kept same]
      exact mem_put_self staged copies
    · exact absurd (same.trans placed) (absent other member)
  · exact (mem_put_iff_of_ne same copies).mpr member

/-- A target with its applications. -/
theorem stageTarget
    (rulebook : Rulebook Note) (target : MethodKey) (rule : Application)
    (others : List Application) (logged : Logged program entries copies progress) :
    (∃ error further,
        Staging.stageTarget rulebook target rule others copies progress =
            (.error error, further) ∧
          Halted program (entries ++ entriesOf target (rule :: others)) error further.log) ∨
      ∃ result further,
        Staging.stageTarget rulebook target rule others copies progress =
            (.ok result, further) ∧
          Logged program (entries ++ entriesOf target (rule :: others)) result further := by
  have asked := Lookup.reaches_askMethod progress.lookup target.type target.method
  have askedLogged := logged.more asked logged.distinct (List.Subset.refl copies)
  rcases stageTarget_cases rulebook target rule others copies progress with
    ⟨error, failed⟩ | ⟨place, staged, found, made, applied⟩
  · refine Or.inl ⟨_, _, failed, ?_⟩
    refine (askedLogged.haltedBefore target rule error).mono ?_
    exact ⟨entriesOf target others, by simp [entriesOf]⟩
  · have named : names program staged.method target = true := by
      rw [(of_findOrCopy made).1]
      exact logged.answered_iff.mp found
    rw [asked.program_eq, logged.reached.program_eq] at made
    rcases
        (askedLogged.findOrCopy made).applyRules rulebook (rule :: others) logged.distinct
          named with
      ⟨error, further, failed, halted⟩ | ⟨next, further, done, _, nextLogged⟩
    · refine Or.inl ⟨error, further, ?_, halted⟩
      rw [applied, failed]
      rfl
    · refine Or.inr ⟨put next copies, further, ?_, nextLogged⟩
      rw [applied, done]
      rfl

/-- Many targets, one after another. -/
theorem stageAll (rulebook : Rulebook Note) :
    ∀ (targets : List (MethodKey × List Application))
      {entries : List (MethodKey × Application)} {copies : List Staged}
      {progress : Progress Note},
      Logged program entries copies progress →
        (∃ error further,
            Staging.stageAll rulebook targets copies progress = (.error error, further) ∧
              Halted program
                (entries ++ targets.flatMap fun (target, applications) =>
                  entriesOf target applications)
                error further.log) ∨
          ∃ result further,
            Staging.stageAll rulebook targets copies progress = (.ok result, further) ∧
              Logged program
                (entries ++ targets.flatMap fun (target, applications) =>
                  entriesOf target applications)
                result further
  | [], entries, copies, progress, logged => by
      refine Or.inr ⟨copies, progress, rfl, ?_⟩
      rw [List.flatMap_nil, List.append_nil]
      exact logged
  | (target, []) :: targets, entries, copies, progress, logged => by
      rw [List.flatMap_cons, Staging.stageAll]
      exact stageAll rulebook targets logged
  | (target, rule :: others) :: targets, entries, copies, progress, logged => by
      rw [List.flatMap_cons, ← List.append_assoc, Staging.stageAll]
      rcases logged.stageTarget rulebook target rule others with
        ⟨error, further, failed, halted⟩ | ⟨result, further, done, nextLogged⟩
      · rw [failed]
        exact Or.inl ⟨error, further, rfl, halted.mono (List.prefix_append _ _)⟩
      · rw [done]
        exact stageAll rulebook targets nextLogged

end Logged

/-! ## Repeated rules -/

theorem applyRules_append
    (target : MethodKey) (earlier later : List Application) (staged : Staged)
    (progress : Progress Note) :
    applyRules rulebook target (earlier ++ later) staged progress =
      match applyRules rulebook target earlier staged progress with
      | (.error error, progress) => (.error error, progress)
      | (.ok staged, progress) => applyRules rulebook target later staged progress := by
  induction earlier generalizing staged progress with
  | nil => rfl
  | cons application earlier inductionHypothesis =>
      rw [List.cons_append, applyRules, applyRules]
      split
      · rfl
      · exact inductionHypothesis _ _

/-- A rule that the copy has noted is refused, and nothing is run. -/
theorem applyRules_of_mem
    {target : MethodKey} {application : Application} {others : List Application}
    {staged : Staged} {progress : Progress Note}
    (noted : application.rule ∈ staged.rules) :
    applyRules rulebook target (application :: others) staged progress =
      (.error ⟨application.rule, target, .ruleAlreadyApplied application.rule target.text⟩,
        progress) := by
  simp [applyRules, applyRule, noted]

/-- A target whose first rule was run on its method before is refused, and nothing is run. -/
theorem stageTarget_of_repeated
    (rulebook : Rulebook Note) {target : MethodKey} {rule : Application}
    (others : List Application) {place : MemberPlace} {progress : Progress Note}
    (logged : Logged program entries copies progress)
    (named : names program place target = true)
    (repeated : (place, rule.rule) ∈ progress.log.map Invocation.onMethod) :
    ∃ further,
      stageTarget rulebook target rule others copies progress =
          (.error ⟨rule.rule, target, .ruleAlreadyApplied rule.rule target.text⟩, further) ∧
        further.log = progress.log := by
  have answered := logged.answered_iff.mpr named
  have recorded : (copies.find? fun staged => staged.method = place).isSome := by
    rcases List.mem_map.mp repeated with ⟨invocation, logMember, same⟩
    rcases logged.recorded invocation logMember with ⟨staged, member, stagedMethod, _⟩
    rw [List.find?_isSome]
    exact ⟨staged, member, decide_eq_true (stagedMethod.trans (Prod.mk.inj same).1)⟩
  rcases Option.isSome_iff_exists.mp recorded with ⟨staged, kept⟩
  have placed : staged.method = place := by
    simpa using List.find?_some kept
  rw [← placed] at repeated
  have noted := logged.mem_rules_of_run (List.mem_of_find?_eq_some kept) repeated
  refine ⟨⟨(progress.lookup.askMethod target.type target.method).2, progress.log⟩, ?_, rfl⟩
  simp [stageTarget, answered, findOrCopy, kept, Except.bind, applyRules_of_mem noted,
    Except.map]

/-- The same further on in a target: the copy that the rules before it leave has noted the
rule. -/
theorem stageTarget_append_of_repeated
    {target : MethodKey} {rule application : Application} {earlier : List Application}
    (others : List Application) {place : MemberPlace} {result : List Staged}
    {progress further : Progress Note}
    (logged : Logged program entries copies progress)
    (staged : stageTarget rulebook target rule earlier copies progress = (.ok result, further))
    (named : names program place target = true)
    (repeated : (place, application.rule) ∈ further.log.map Invocation.onMethod) :
    stageTarget rulebook target rule (earlier ++ application :: others) copies progress =
      (.error ⟨application.rule, target, .ruleAlreadyApplied application.rule target.text⟩,
        further) := by
  rcases of_stageTarget staged with ⟨found, start, next, answered, made, applied, rfl⟩
  have asked := Lookup.reaches_askMethod progress.lookup target.type target.method
  have askedLogged := logged.more asked logged.distinct (List.Subset.refl copies)
  have startMethod : start.method = place := by
    have search := names_iff.mp (logged.answered_iff.mp answered)
    have sameFound := search.symm.trans (names_iff.mp named)
    exact (of_findOrCopy made).1.trans (Except.ok.inj sameFound)
  have startNamed : names program start.method target = true := startMethod ▸ named
  have known := made
  rw [asked.program_eq, logged.reached.program_eq] at known
  rcases
      (askedLogged.findOrCopy known).applyRules rulebook (rule :: earlier) logged.distinct
        startNamed with
    ⟨_, _, failed, _⟩ | ⟨last, final, done, lastMethod, lastLogged⟩
  · rw [failed] at applied
    cases applied
  · obtain ⟨lastEq, rfl⟩ := Prod.mk.inj (done.symm.trans applied)
    obtain rfl := Except.ok.inj lastEq
    rw [← startMethod, ← lastMethod] at repeated
    have noted := lastLogged.mem_rules_of_run (mem_put_self last copies) repeated
    have refused :
        applyRules rulebook target (rule :: (earlier ++ application :: others)) start
            { progress with
              lookup := (progress.lookup.askMethod target.type target.method).2 } =
          (.error ⟨application.rule, target,
            .ruleAlreadyApplied application.rule target.text⟩, final) := by
      rw [← List.cons_append, applyRules_append, done]
      exact applyRules_of_mem noted
    simp [stageTarget, answered, made, refused, Except.bind, Except.map]

/-- Once the applications before it are staged, an application whose rule was run on its
method before is refused, and nothing is run. -/
theorem stageAll_of_repeated
    {before : List (MethodKey × List Application)} {target : MethodKey}
    {some : List Application} (others : List Application)
    (after : List (MethodKey × List Application)) {application : Application} {place : MemberPlace}
    {progress : Progress Note}
    (staged :
      stageAll rulebook (before ++ [(target, some)]) [] ⟨.ofProgram program, []⟩ =
        (.ok copies, progress))
    (named : names program place target = true)
    (repeated : (place, application.rule) ∈ progress.log.map Invocation.onMethod) :
    ∃ further,
      stageAll rulebook (before ++ (target, some ++ application :: others) :: after) []
          ⟨.ofProgram program, []⟩ =
        (.error ⟨application.rule, target, .ruleAlreadyApplied application.rule target.text⟩,
          further) ∧
        further.log = progress.log := by
  rw [stageAll_append] at staged ⊢
  rcases (Logged.start program).stageAll rulebook before with
    ⟨_, _, failed, _⟩ | ⟨earlier, between, earlierStaged, logged⟩
  · rw [failed] at staged
    cases staged
  · rw [earlierStaged] at staged ⊢
    rcases some with _ | ⟨rule, rules⟩
    · obtain ⟨resultEq, rfl⟩ := Prod.mk.inj staged
      rcases stageTarget_of_repeated rulebook others logged named repeated with
        ⟨further, refused, sameLog⟩
      refine ⟨further, ?_, sameLog⟩
      simp [stageAll, refused]
    · simp only [stageAll] at staged
      split at staged
      · cases staged
      · rename_i result further done
        obtain ⟨_, rfl⟩ := Prod.mk.inj staged
        have refused :=
          stageTarget_append_of_repeated others logged done named repeated
        refine ⟨further, ?_, rfl⟩
        simp [stageAll, refused]

end Staging

namespace Build

variable {plan : Plan}

/-- The first application of an unknown rule ends a build before anything is run. -/
theorem run_of_unknown
    {earlier later : List (MethodKey × Application)} {target : MethodKey}
    {application : Application}
    (entries : plan.entries = earlier ++ (target, application) :: later)
    (known : ∀ entry ∈ earlier, rulebook.contains entry.2.rule = true)
    (unknown : rulebook.contains application.rule = false) :
    run program rulebook plan =
      ⟨.error ⟨application.rule, target, .unknownRule application.rule⟩, program, []⟩ := by
  have found :
      unknownRule? rulebook plan =
        some ⟨application.rule, target, .unknownRule application.rule⟩ := by
    rw [unknownRule?, entries, List.findSome?_append, List.findSome?_eq_none_iff.mpr]
    · simp [unknown]
    · intro entry member
      simp [known entry member]
  simp [run, found]

/-- The rules that a build runs, against its plan. -/
structure Orderly
    (program : Program) (rulebook : Rulebook Note) (plan : Plan) (outcome : Outcome Note) :
    Prop where
  /-- The rules that were run are those at the start of the plan, in its order, each on the
  method that its target names, and no rule twice on one method. -/
  traced : ∃ done, done <+: plan.entries ∧ Staging.Traced program done outcome.log
  /-- If the build succeeds, all rules of the plan were run and have succeeded. -/
  complete :
    ∀ report,
      outcome.result = .ok report →
        outcome.log.map Invocation.entry = plan.entries ∧
          ∀ invocation ∈ outcome.log, invocation.outcome = .ok ()
  /-- Nothing is run after a rule that fails, and the build fails with its error. -/
  failStop :
    ∀ before invocation after cause,
      outcome.log = before ++ invocation :: after →
        invocation.outcome = .error cause →
          after = [] ∧
            outcome.result =
              .error ⟨invocation.application.rule, invocation.target, cause⟩
  /-- The first rule that is not known is reported, and nothing is run. -/
  unknown :
    ∀ earlier target application later,
      plan.entries = earlier ++ (target, application) :: later →
        (∀ entry ∈ earlier, rulebook.contains entry.2.rule = true) →
          rulebook.contains application.rule = false →
            outcome.log = [] ∧
              outcome.result =
                .error ⟨application.rule, target, .unknownRule application.rule⟩
  /-- If the plan cut before an application can be carried out, and its rule was run on the
  method that its target names, the build fails there and the rule is not run again. -/
  repeated :
    ∀ before target some application others after place,
      plan.targets = before ++ (target, some ++ application :: others) :: after →
        (∀ entry ∈ plan.entries, rulebook.contains entry.2.rule = true) →
          let cut := run program rulebook ⟨before ++ [(target, some)]⟩
          (∃ report, cut.result = .ok report) →
            Lookup.searchMethod program target.type target.method = .ok place →
              (place, application.rule) ∈ cut.log.map Invocation.onMethod →
                outcome.log = cut.log ∧
                  outcome.result =
                    .error ⟨application.rule, target,
                      .ruleAlreadyApplied application.rule target.text⟩
  /-- An error names an application of the plan. -/
  charged :
    ∀ error,
      outcome.result = .error error →
        ∃ application,
          (error.target, application) ∈ plan.entries ∧ application.rule = error.rule

/-- A build that knows all its rules, told by its log. It ends at an application of the plan
that fails, or with the plan. -/
theorem run_logged (program : Program) (known : unknownRule? rulebook plan = none) :
    (∃ error log,
        run program rulebook plan = ⟨.error error, program, log⟩ ∧
          Staging.Halted program plan.entries error log) ∨
      ∃ report copies further,
        Staging.stageAll rulebook plan.targets [] ⟨.ofProgram program, []⟩ =
            (.ok copies, further) ∧
          run program rulebook plan = ⟨.ok report, copies.foldl commit program, further.log⟩ ∧
            Staging.Logged program plan.entries copies further := by
  rw [run_of_known known]
  rcases (Staging.Logged.start program).stageAll rulebook plan.targets with
    ⟨error, further, failed, halted⟩ | ⟨copies, further, staged, logged⟩
  · rw [failed]
    exact Or.inl ⟨error, further.log, rfl, halted⟩
  · rw [staged]
    exact Or.inr ⟨_, copies, further, rfl, rfl, logged⟩

/-- The entries of a plan that is cut before an application are entries of the whole plan. -/
private theorem entries_cut_subset
    {before after : List (MethodKey × List Application)} {target : MethodKey}
    {some others : List Application} {application : Application}
    (targets : plan.targets = before ++ (target, some ++ application :: others) :: after) :
    (⟨before ++ [(target, some)]⟩ : Plan).entries ⊆ plan.entries := by
  intro entry member
  simp only [Plan.entries, targets, List.flatMap_append, List.flatMap_cons, List.map_append,
    List.flatMap_nil, List.append_nil, List.mem_append] at member ⊢
  rcases member with earlier | here
  · exact Or.inl earlier
  · exact Or.inr (Or.inl (Or.inl here))

theorem orderly_of_run (program : Program) (rulebook : Rulebook Note) (plan : Plan) :
    Orderly program rulebook plan (run program rulebook plan) where
  traced := by
    cases known : unknownRule? rulebook plan with
    | some error => exact ⟨[], List.nil_prefix, by simp [run, known], by simp [run, known], by
        simp [run, known]⟩
    | none =>
        rcases run_logged program known with
          ⟨error, log, runEq, halted⟩ | ⟨report, copies, further, _, runEq, logged⟩
        · rw [runEq]
          exact halted.traced
        · rw [runEq]
          exact ⟨plan.entries, List.prefix_rfl, logged.traced⟩
  complete := by
    intro report succeeded
    cases known : unknownRule? rulebook plan with
    | some error => simp [run, known] at succeeded
    | none =>
        rcases run_logged program known with
          ⟨error, log, runEq, _⟩ | ⟨_, copies, further, _, runEq, logged⟩
        · rw [runEq] at succeeded
          cases succeeded
        · rw [runEq]
          exact ⟨logged.traced.planned, logged.succeeded⟩
  failStop := by
    intro before invocation after cause logEq failed
    cases known : unknownRule? rulebook plan with
    | some error => simp [run, known] at logEq
    | none =>
        rcases run_logged program known with
          ⟨error, log, runEq, halted⟩ | ⟨_, copies, further, _, runEq, logged⟩
        · rw [runEq] at logEq ⊢
          obtain ⟨nothing, errorEq⟩ := halted.failStop before invocation after cause logEq failed
          exact ⟨nothing, by rw [errorEq]⟩
        · rw [runEq] at logEq
          dsimp only at logEq
          have succeeded := logged.succeeded invocation (by simp [logEq])
          rw [failed] at succeeded
          cases succeeded
  unknown := by
    intro earlier target application later entries known unknown
    rw [run_of_unknown entries known unknown]
    exact ⟨rfl, rfl⟩
  repeated := by
    intro before target some application others after place targets allKnown cut cutSucceeds
      named repeated
    obtain ⟨report, succeeded⟩ := cutSucceeds
    have known := unknownRule?_eq_none_iff.mpr allKnown
    have cutKnown : unknownRule? rulebook ⟨before ++ [(target, some)]⟩ = none := by
      rw [unknownRule?_eq_none_iff]
      intro entry member
      exact allKnown entry (entries_cut_subset targets member)
    rcases run_logged program cutKnown with
      ⟨_, _, cutEq, _⟩ | ⟨_, copies, progress, staged, cutEq, _⟩
    · simp [cut, cutEq] at succeeded
    · have cutLog : cut.log = progress.log := by
        simp [cut, cutEq]
      rw [cutLog] at repeated ⊢
      rcases Staging.stageAll_of_repeated others after staged
          (Staging.names_iff.mpr named) repeated with ⟨further, refused, sameLog⟩
      rw [← targets] at refused
      rw [run_of_known known, refused]
      exact ⟨sameLog, rfl⟩
  charged := by
    intro error failed
    cases known : unknownRule? rulebook plan with
    | some unknown =>
        obtain rfl : unknown = error := by
          simpa [run, known] using failed
        rcases List.exists_of_findSome?_eq_some known with ⟨⟨target, application⟩, member, found⟩
        by_cases contained : rulebook.contains application.rule = true
        · simp [contained] at found
        · simp only [contained] at found
          obtain rfl := Option.some.inj found
          exact ⟨application, member, rfl⟩
    | none =>
        rcases run_logged program known with
          ⟨_, log, runEq, halted⟩ | ⟨_, copies, further, _, runEq, _⟩
        · rw [runEq] at failed
          obtain rfl := Except.error.inj failed
          exact halted.charged
        · rw [runEq] at failed
          cases failed

/-- A second target names the same method in other words. Its first rule is run on the copy of
the first target, its second one was run before and is refused. -/
theorem orderly_of_run_two_names :
    let method : MethodDecl := ⟨"f", "void", [], some ⟨[], [], .empty 0⟩, [], .unpatched⟩
    let program : Program := ⟨[⟨"m", [⟨"T", [], [method]⟩]⟩]⟩
    let rulebook : Rulebook Unit :=
      ⟨[("first", addReturn (.ok ())), ("second", addReturn (.ok ()))]⟩
    let place : MemberPlace := ⟨⟨0, 0⟩, 0⟩
    let target : MethodKey := ⟨"T", "void f()"⟩
    let plan : Plan :=
      ⟨[(⟨"T", "f"⟩, [⟨"first", .null⟩]),
        (target, [⟨"second", .null⟩, ⟨"first", .null⟩])]⟩
    let outcome := run program rulebook plan
    Orderly program rulebook plan outcome ∧
      outcome.log.map Invocation.onMethod = [(place, "first"), (place, "second")] ∧
        outcome.result =
          .error ⟨"first", target, .ruleAlreadyApplied "first" target.text⟩ := by
  intro method program rulebook place target plan outcome
  have orderly := orderly_of_run program rulebook plan
  have named : Staging.names program place target = true := by
    decide +kernel
  have known : ∀ entry ∈ plan.entries, rulebook.contains entry.2.rule = true := by
    decide +kernel
  -- the plan without its last application can be carried out
  generalize ran :
      run program rulebook
        ⟨[(⟨"T", "f"⟩, [⟨"first", .null⟩])] ++ [(target, [⟨"second", .null⟩])]⟩ = cut
  have invoked : cut.log.map Invocation.onMethod = [(place, "first"), (place, "second")] := by
    rw [← ran]
    decide +kernel
  have finished : cut.result.isOk = true := by
    rw [← ran]
    decide +kernel
  have repeated :=
    orderly.repeated [(⟨"T", "f"⟩, [⟨"first", .null⟩])] target [⟨"second", .null⟩]
      ⟨"first", .null⟩ [] [] place rfl known
  rw [ran] at repeated
  cases result : cut.result with
  | error error => simp [result, Except.isOk, Except.toBool] at finished
  | ok report =>
      rcases repeated ⟨report, result⟩ (Staging.names_iff.mp named) (by simp [invoked]) with
        ⟨sameLog, refused⟩
      rw [← sameLog] at invoked
      exact ⟨orderly, invoked, refused⟩

end Build

end BytecodePatch
