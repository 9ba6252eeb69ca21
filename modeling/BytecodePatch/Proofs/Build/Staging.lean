import BytecodePatch.Build.Staging
import BytecodePatch.Proofs.Except
import BytecodePatch.Proofs.Program.Lookup
import Mathlib.Data.List.Nodup

/-!
# What staging does to the copies

At every point of a staging that has not failed there is one copy for each method that an
application so far was meant for. It is what these applications made of the body of the
method, in the order of the plan, whichever targets they stand under.
-/

namespace BytecodePatch.Staging

variable {Note : Type} {rulebook : Rulebook Note} {program : Program}

/-- Whether a target names the method at a place. -/
def names (program : Program) (place : MemberPlace) (target : MethodKey) : Bool :=
  match Lookup.searchMethod program target.type target.method with
  | .ok found => found = place
  | .error _ => false

theorem names_iff {place : MemberPlace} {target : MethodKey} :
    names program place target = true ↔
      Lookup.searchMethod program target.type target.method = .ok place := by
  unfold names
  split
  · rename_i found search
    simp [search]
  · rename_i error search
    simp [search]

/-- A target names one method at most. -/
theorem eq_of_names
    {place other : MemberPlace} {target : MethodKey}
    (named : names program place target = true)
    (otherNamed : names program other target = true) :
    place = other := by
  have same : (.ok place : Except PatchError MemberPlace) = .ok other :=
    (names_iff.mp named).symm.trans (names_iff.mp otherNamed)
  exact Except.ok.inj same

/-- The applications among some that are meant for the method at a place. -/
def meantFor
    (program : Program) (place : MemberPlace) (entries : List (MethodKey × Application)) :
    List (MethodKey × Application) :=
  entries.filter fun entry => names program place entry.1

/-- What applications make of a body when their rules run on a copy of it one after another.
Each rule runs with a lookup that the run before it, and other questions since, led to. It
succeeds and leaves no branch without a target. -/
inductive Applied (rulebook : Rulebook Note) (program : Program) (original : Body) :
    List (MethodKey × Application) → Body → Lookup → Prop where
  | none : Applied rulebook program original [] original (.ofProgram program)
  | snoc {entries : List (MethodKey × Application)} {body : Body} {before now later : Lookup}
      {target : MethodKey} {application : Application} {rule : Rule Note}
      {verdict : Verdict Note}
      (earlier : Applied rulebook program original entries body before)
      (asked : before.Reaches now)
      (found : rulebook.find? application.rule = some rule)
      (ran : (rule ⟨target, program, application.argument, body⟩).run now = (verdict, later))
      (succeeded : verdict.outcome = .ok ())
      (verified : verdict.body.code.verify = .ok ()) :
      Applied rulebook program original (entries ++ [(target, application)]) verdict.body later

namespace Applied

variable {original body otherBody : Body} {last otherLast : Lookup}
  {entries : List (MethodKey × Application)}

theorem reached (applied : Applied rulebook program original entries body last) :
    (Lookup.ofProgram program).Reaches last := by
  induction applied with
  | none => exact .refl
  | @snoc _ body _ now _ target application rule _ _ asked _ ran _ _ inductionHypothesis =>
      have further :=
        Inquiry.reaches_run (rule ⟨target, program, application.argument, body⟩) now
      rw [ran] at further
      exact inductionHypothesis.trans (asked.trans further)

/-- If no rule looks at the counters, applications can make only one thing of a body: it does
not matter what else was asked between them. -/
theorem unique
    (uncounted :
      ∀ name rule task, rulebook.find? name = some rule → (rule task).Uncounted)
    (applied : Applied rulebook program original entries body last)
    (other : Applied rulebook program original entries otherBody otherLast) :
    body = otherBody := by
  induction applied generalizing otherBody otherLast with
  | none =>
      generalize same : ([] : List (MethodKey × Application)) = entries at other
      cases other with
      | none => rfl
      | snoc => exact absurd same.symm (List.append_ne_nil_of_right_ne_nil _ (by simp))
  | snoc earlier asked found ran _ _ inductionHypothesis =>
      generalize same : _ ++ [_] = entries at other
      cases other with
      | none => exact absurd same (List.append_ne_nil_of_right_ne_nil _ (by simp))
      | snoc otherEarlier otherAsked otherFound otherRan _ _ =>
          obtain ⟨rfl, entryEq⟩ := List.append_inj' same rfl
          obtain ⟨rfl, rfl⟩ := Prod.mk.inj (List.singleton_inj.mp entryEq)
          obtain rfl := inductionHypothesis otherEarlier
          obtain rfl := Option.some.inj (found.symm.trans otherFound)
          have nowReached := earlier.reached.trans asked
          have otherReached := otherEarlier.reached.trans otherAsked
          have nowFaithful := nowReached.faithful (Lookup.faithful_ofProgram program)
          have otherFaithful := otherReached.faithful (Lookup.faithful_ofProgram program)
          have samePrograms := nowReached.program_eq.trans otherReached.program_eq.symm
          have sameVerdict :=
            (congrArg Prod.fst ran).symm.trans
              (((uncounted _ _ _ found).result_eq nowFaithful otherFaithful samePrograms).trans
                (congrArg Prod.fst otherRan))
          exact congrArg Verdict.body sameVerdict

/-- What some applications make of a body has no branch without a target. -/
theorem verified
    (applied : Applied rulebook program original entries body last) (some : entries ≠ []) :
    body.code.verify = .ok () := by
  cases applied with
  | none => exact absurd rfl some
  | snoc _ _ _ _ _ verified => exact verified

end Applied

/-! ## One copy -/

/-- A copy is what applications made of the body of a method that may be patched. -/
def IsCopy
    (rulebook : Rulebook Note) (program : Program) (staged : Staged)
    (entries : List (MethodKey × Application)) (lookup : Lookup) : Prop :=
  ∃ method original last,
    program.method? staged.method = some method ∧ method.state ≠ .committed ∧
      method.body = some original ∧
        Applied rulebook program original entries staged.body last ∧ last.Reaches lookup

theorem IsCopy.later
    {staged : Staged} {entries : List (MethodKey × Application)} {lookup further : Lookup}
    (copy : IsCopy rulebook program staged entries lookup)
    (asked : lookup.Reaches further) :
    IsCopy rulebook program staged entries further := by
  obtain ⟨method, original, last, found, uncommitted, body, applied, reached⟩ := copy
  exact ⟨method, original, last, found, uncommitted, body, applied, reached.trans asked⟩

/-- A new copy is made of the body of a method that has one and is not committed. -/
theorem copyOf_eq_ok_iff
    {place : MemberPlace} {target : MethodKey} {staged : Staged} :
    copyOf program place target = .ok staged ↔
      ∃ method original,
        program.method? place = some method ∧ method.state ≠ .committed ∧
          method.body = some original ∧
            staged = ⟨target, place, original, [], .unpatched, original.code.length⟩ := by
  unfold copyOf
  cases found : program.method? place with
  | none => simp
  | some method =>
      by_cases committed : method.state = .committed
      · simp [committed]
      · cases body : method.body with
        | none => simp [committed, body]
        | some original => simp [committed, body, eq_comm (b := staged)]

theorem isCopy_of_copyOf
    {place : MemberPlace} {target : MethodKey} {staged : Staged} {lookup : Lookup}
    (reached : (Lookup.ofProgram program).Reaches lookup)
    (made : copyOf program place target = .ok staged) :
    staged.method = place ∧ IsCopy rulebook program staged [] lookup := by
  rcases copyOf_eq_ok_iff.mp made with ⟨method, original, found, uncommitted, body, rfl⟩
  exact ⟨rfl, method, original, _, found, uncommitted, body, .none, reached⟩

/-- All that a rule which succeeds does: its body, its name and the state are new in the copy,
and the run is logged. -/
theorem of_applyRule
    {staged result : Staged} {target : MethodKey} {application : Application}
    {progress further : Progress Note}
    (done : applyRule rulebook target application staged progress = (.ok result, further)) :
    ∃ rule verdict,
      rulebook.find? application.rule = some rule ∧
        (rule ⟨target, progress.lookup.program, application.argument, staged.body⟩).run
            progress.lookup = (verdict, further.lookup) ∧
          verdict.outcome = .ok () ∧ verdict.body.code.verify = .ok () ∧
            result =
              { staged with
                body := verdict.body
                rules := staged.rules ++ [application.rule]
                state := .rulesApplied } := by
  unfold applyRule at done
  split at done
  · cases done
  · split at done
    · cases done
    · rename_i rule found
      dsimp only at done
      split at done
      · cases done
      · rename_i succeeded
        split at done
        · cases done
        · rename_i verified
          obtain ⟨resultEq, rfl⟩ := Prod.mk.inj done
          exact ⟨rule, _, found, rfl, succeeded, verified, (Except.ok.inj resultEq).symm⟩

/-- A rule that succeeds carries a copy one application further. -/
theorem isCopy_of_applyRule
    {staged result : Staged} {target : MethodKey} {application : Application}
    {entries : List (MethodKey × Application)} {progress further : Progress Note}
    (copy : IsCopy rulebook program staged entries progress.lookup)
    (same : progress.lookup.program = program)
    (done : applyRule rulebook target application staged progress = (.ok result, further)) :
    result.method = staged.method ∧
      IsCopy rulebook program result (entries ++ [(target, application)]) further.lookup := by
  obtain ⟨method, original, last, found, uncommitted, body, applied, reached⟩ := copy
  obtain ⟨rule, verdict, ruleFound, ran, succeeded, verified, rfl⟩ := of_applyRule done
  rw [same] at ran
  exact ⟨rfl, method, original, _, found, uncommitted, body,
    .snoc applied reached ruleFound ran succeeded verified, .refl⟩

theorem reaches_applyRule
    (rulebook : Rulebook Note) (target : MethodKey) (application : Application)
    (staged : Staged) (progress : Progress Note) :
    progress.lookup.Reaches
      (applyRule rulebook target application staged progress).2.lookup := by
  unfold applyRule
  split
  · exact .refl
  · split
    · exact .refl
    · rename_i rule _
      have asked :=
        Inquiry.reaches_run
          (rule ⟨target, progress.lookup.program, application.argument, staged.body⟩)
          progress.lookup
      dsimp only
      split
      · exact asked
      · split <;> exact asked

/-- The applications of a target carry a copy on by all of them. -/
theorem isCopy_of_applyRules {target : MethodKey} :
    ∀ {applications : List Application} {staged result : Staged}
      {entries : List (MethodKey × Application)} {progress further : Progress Note},
      IsCopy rulebook program staged entries progress.lookup →
        progress.lookup.program = program →
          applyRules rulebook target applications staged progress = (.ok result, further) →
            result.method = staged.method ∧
              progress.lookup.Reaches further.lookup ∧
                IsCopy rulebook program result
                  (entries ++ applications.map fun application => (target, application))
                  further.lookup
  | [], staged, result, entries, progress, further, copy, _, done => by
      obtain ⟨resultEq, rfl⟩ := Prod.mk.inj done
      obtain rfl := Except.ok.inj resultEq
      refine ⟨rfl, .refl, ?_⟩
      rw [List.map_nil, List.append_nil]
      exact copy
  | application :: applications, staged, result, entries, progress, further, copy, same,
      done => by
      have asked := reaches_applyRule rulebook target application staged progress
      unfold applyRules at done
      split at done
      · cases done
      · rename_i next between applied
        rw [applied] at asked
        obtain ⟨methodEq, nextCopy⟩ := isCopy_of_applyRule copy same applied
        have sameNext : between.lookup.program = program := by
          rw [asked.program_eq, same]
        obtain ⟨resultMethod, further, resultCopy⟩ :=
          isCopy_of_applyRules nextCopy sameNext done
        refine ⟨resultMethod.trans methodEq, asked.trans further, ?_⟩
        rw [List.map_cons, ← List.singleton_append, ← List.append_assoc]
        exact resultCopy

/-! ## All copies -/

/-- Putting a copy among others replaces the one of its method, or adds it at the end. -/
theorem map_method_put (staged : Staged) :
    ∀ copies : List Staged,
      (put staged copies).map Staged.method =
        if staged.method ∈ copies.map Staged.method then copies.map Staged.method
        else copies.map Staged.method ++ [staged.method]
  | [] => rfl
  | other :: others => by
      unfold put
      by_cases here : other.method = staged.method
      · simp [here]
      · have rest := map_method_put staged others
        rw [if_neg here, List.map_cons, rest, List.map_cons]
        by_cases later : staged.method ∈ others.map Staged.method
        · rw [if_pos later, if_pos (List.mem_cons_of_mem _ later)]
        · have absent : staged.method ∉ other.method :: others.map Staged.method := by
            simp only [List.mem_cons, not_or]
            exact ⟨Ne.symm here, later⟩
          rw [if_neg later, if_neg absent, List.cons_append]

theorem nodup_put {staged : Staged} {copies : List Staged}
    (distinct : (copies.map Staged.method).Nodup) :
    ((put staged copies).map Staged.method).Nodup := by
  rw [map_method_put]
  by_cases present : staged.method ∈ copies.map Staged.method
  · rw [if_pos present]
    exact distinct
  · rw [if_neg present, List.nodup_append]
    refine ⟨distinct, List.nodup_singleton _, ?_⟩
    intro method member other otherMember same
    rw [List.mem_singleton.mp otherMember] at same
    exact present (same ▸ member)

theorem mem_put_self (staged : Staged) :
    ∀ copies : List Staged, staged ∈ put staged copies
  | [] => List.mem_singleton_self _
  | other :: others => by
      unfold put
      split
      · exact List.mem_cons_self
      · exact List.mem_cons_of_mem _ (mem_put_self staged others)

/-- The copies of other methods stay, and no other copy of this method does. -/
theorem mem_put_iff_of_ne {staged other : Staged} (different : other.method ≠ staged.method) :
    ∀ copies : List Staged, other ∈ put staged copies ↔ other ∈ copies
  | [] => by
      simp only [put, List.mem_singleton, List.not_mem_nil, iff_false]
      rintro rfl
      exact different rfl
  | first :: others => by
      have notStaged : other ≠ staged := fun same => different (congrArg Staged.method same)
      unfold put
      split
      · rename_i replaced
        have notFirst : other ≠ first := by
          rintro rfl
          exact different replaced
        simp only [List.mem_cons, notStaged, notFirst, false_or]
      · simp only [List.mem_cons, mem_put_iff_of_ne different others]

theorem eq_of_mem_put {staged other : Staged} {copies : List Staged}
    (distinct : (copies.map Staged.method).Nodup)
    (member : other ∈ put staged copies)
    (same : other.method = staged.method) :
    other = staged :=
  List.inj_on_of_nodup_map (nodup_put distinct) member (mem_put_self staged copies) same

/-- The copies after some applications: one for each method that some of them were meant
for, made by exactly these. -/
structure Copied
    (rulebook : Rulebook Note) (program : Program) (entries : List (MethodKey × Application))
    (copies : List Staged) (lookup : Lookup) : Prop where
  reached : (Lookup.ofProgram program).Reaches lookup
  distinct : (copies.map Staged.method).Nodup
  copy :
    ∀ staged ∈ copies,
      IsCopy rulebook program staged (meantFor program staged.method entries) lookup
  meant : ∀ staged ∈ copies, meantFor program staged.method entries ≠ []
  covered :
    ∀ entry ∈ entries, ∃ staged ∈ copies, names program staged.method entry.1 = true

namespace Copied

variable {entries : List (MethodKey × Application)} {copies : List Staged} {lookup : Lookup}

theorem start : Copied rulebook program [] [] (.ofProgram program) where
  reached := .refl
  distinct := List.nodup_nil
  copy := fun _ member => absurd member List.not_mem_nil
  meant := fun _ member => absurd member List.not_mem_nil
  covered := fun _ member => absurd member List.not_mem_nil

theorem faithful (copied : Copied rulebook program entries copies lookup) : lookup.Faithful :=
  copied.reached.faithful (Lookup.faithful_ofProgram program)

/-- No application was meant for a method without a copy. -/
theorem meantFor_eq_nil
    {place : MemberPlace}
    (copied : Copied rulebook program entries copies lookup)
    (absent : ∀ staged ∈ copies, staged.method ≠ place) :
    meantFor program place entries = [] := by
  apply List.filter_eq_nil_iff.mpr
  intro entry member named
  obtain ⟨staged, stagedMember, stagedNamed⟩ := copied.covered entry member
  exact absent staged stagedMember (eq_of_names stagedNamed named)

/-- Every copy can be flattened: a rule was applied to it, and the branches were checked
after it. -/
theorem verified
    {staged : Staged}
    (copied : Copied rulebook program entries copies lookup) (member : staged ∈ copies) :
    staged.body.code.verify = .ok () := by
  rcases copied.copy staged member with ⟨_, _, _, _, _, _, applied, _⟩
  exact applied.verified (copied.meant staged member)

/-- No method with a copy is committed. -/
theorem uncommitted
    {staged : Staged} {method : MethodDecl}
    (copied : Copied rulebook program entries copies lookup) (member : staged ∈ copies)
    (found : program.method? staged.method = some method) :
    method.state ≠ .committed := by
  rcases copied.copy staged member with ⟨other, _, _, otherFound, uncommitted, _⟩
  obtain rfl := Option.some.inj (found.symm.trans otherFound)
  exact uncommitted

end Copied

/-- The applications of a target as entries of a plan. -/
def entriesOf (target : MethodKey) (applications : List Application) :
    List (MethodKey × Application) :=
  applications.map fun application => (target, application)

theorem meantFor_append (place : MemberPlace) (left right : List (MethodKey × Application)) :
    meantFor program place (left ++ right) =
      meantFor program place left ++ meantFor program place right :=
  List.filter_append ..

theorem meantFor_entriesOf (place : MemberPlace) (target : MethodKey)
    (applications : List Application) :
    meantFor program place (entriesOf target applications) =
      if names program place target = true then entriesOf target applications else [] := by
  unfold meantFor entriesOf
  rw [List.filter_map]
  by_cases named : names program place target = true
  · simp [named, Function.comp_def]
  · simp [named, Function.comp_def]

/-- All that staging a target can do. Either its first rule is charged with a target that has
no copy, or its applications run on the copy that was made before or a new one. -/
theorem stageTarget_cases
    (rulebook : Rulebook Note) (target : MethodKey) (rule : Application)
    (others : List Application) (copies : List Staged) (progress : Progress Note) :
    (∃ error,
        stageTarget rulebook target rule others copies progress =
          (.error ⟨rule.rule, target, error⟩,
            { progress with
              lookup := (progress.lookup.askMethod target.type target.method).2 })) ∨
      ∃ place staged,
        (progress.lookup.askMethod target.type target.method).1 = .ok place ∧
          findOrCopy (progress.lookup.askMethod target.type target.method).2.program place target
              copies = .ok staged ∧
            stageTarget rulebook target rule others copies progress =
              let (result, further) := applyRules rulebook target (rule :: others) staged
                { progress with
                  lookup := (progress.lookup.askMethod target.type target.method).2 }
              (result.map fun staged => put staged copies, further) := by
  unfold stageTarget
  dsimp only
  split
  · exact Or.inl ⟨_, rfl⟩
  · rename_i staged placed
    rcases bind_eq_ok_iff.mp placed with ⟨place, found, copied⟩
    exact Or.inr ⟨place, staged, found, copied, rfl⟩

/-- A target after which staging goes on: its method is found, its copy is the one made
before or a new one, and its applications carry the copy on. -/
theorem of_stageTarget
    {target : MethodKey} {rule : Application} {others : List Application}
    {copies result : List Staged} {progress further : Progress Note}
    (done : stageTarget rulebook target rule others copies progress = (.ok result, further)) :
    ∃ place staged next,
      (progress.lookup.askMethod target.type target.method).1 = .ok place ∧
        findOrCopy (progress.lookup.askMethod target.type target.method).2.program place target
            copies = .ok staged ∧
          applyRules rulebook target (rule :: others) staged
              { progress with
                lookup := (progress.lookup.askMethod target.type target.method).2 } =
            (.ok next, further) ∧
          result = put next copies := by
  rcases stageTarget_cases rulebook target rule others copies progress with
    ⟨error, failed⟩ | ⟨place, staged, found, copied, applied⟩
  · rw [failed] at done
    cases done
  · rw [applied] at done
    obtain ⟨resultEq, furtherEq⟩ := Prod.mk.inj done
    obtain ⟨next, nextEq, putEq⟩ := map_eq_ok_iff.mp resultEq
    exact ⟨place, staged, next, found, copied, Prod.ext nextEq furtherEq, putEq.symm⟩

/-- A target starts with the copy of its method, or there was none. -/
theorem of_findOrCopy
    {place : MemberPlace} {target : MethodKey} {copies : List Staged} {staged : Staged}
    (made : findOrCopy program place target copies = .ok staged) :
    staged.method = place ∧
      (staged ∈ copies ∨
        (∀ other ∈ copies, other.method ≠ place) ∧ copyOf program place target = .ok staged) := by
  unfold findOrCopy at made
  split at made
  · rename_i kept found
    obtain rfl := Except.ok.inj made
    exact ⟨by simpa using List.find?_some found, Or.inl (List.mem_of_find?_eq_some found)⟩
  · rename_i absent
    rcases copyOf_eq_ok_iff.mp made with ⟨_, _, _, _, _, rfl⟩
    refine ⟨rfl, Or.inr ⟨?_, made⟩⟩
    intro other member
    simpa using List.find?_eq_none.mp absent other member

/-- The copy with which a target starts is what the applications so far made of the body of
its method, whether it was made before or is new. -/
theorem isCopy_of_findOrCopy
    {place : MemberPlace} {target : MethodKey} {entries : List (MethodKey × Application)}
    {copies : List Staged} {staged : Staged} {lookup further : Lookup}
    (copied : Copied rulebook program entries copies lookup)
    (asked : lookup.Reaches further)
    (made : findOrCopy program place target copies = .ok staged) :
    staged.method = place ∧
      IsCopy rulebook program staged (meantFor program place entries) further := by
  rcases of_findOrCopy made with ⟨rfl, member | ⟨absent, fresh⟩⟩
  · exact ⟨rfl, (copied.copy staged member).later asked⟩
  · rw [copied.meantFor_eq_nil absent]
    exact ⟨rfl, (isCopy_of_copyOf (copied.reached.trans asked) fresh).2⟩

theorem names_eq_false
    {place other : MemberPlace} {target : MethodKey}
    (named : names program place target = true) (different : other ≠ place) :
    names program other target = false := by
  rw [Bool.eq_false_iff]
  exact fun otherNamed => different (eq_of_names otherNamed named)

/-- A target after which staging goes on names the method of its copy. -/
theorem Copied.of_stageTarget
    {target : MethodKey} {rule : Application} {others : List Application}
    {entries : List (MethodKey × Application)} {copies result : List Staged}
    {progress further : Progress Note}
    (copied : Copied rulebook program entries copies progress.lookup)
    (done :
      Staging.stageTarget rulebook target rule others copies progress =
        (.ok result, further)) :
    ∃ staged next,
      names program staged.method target = true ∧
        findOrCopy program staged.method target copies = .ok staged ∧
          applyRules rulebook target (rule :: others) staged
              { progress with
                lookup := (progress.lookup.askMethod target.type target.method).2 } =
            (.ok next, further) ∧
          result = put next copies := by
  obtain ⟨place, staged, next, found, made, applied, resultEq⟩ := Staging.of_stageTarget done
  have asked := Lookup.reaches_askMethod progress.lookup target.type target.method
  rw [asked.program_eq, copied.reached.program_eq] at made
  obtain ⟨rfl, _⟩ := of_findOrCopy made
  refine ⟨staged, next, ?_, made, applied, resultEq⟩
  rw [names_iff, ← found, copied.reached.askMethod_eq]

/-- Every target of a plan adds its applications to those that made the copy of its method,
and leaves the other copies alone. -/
theorem Copied.stageTarget
    {target : MethodKey} {rule : Application} {others : List Application}
    {entries : List (MethodKey × Application)} {copies result : List Staged}
    {progress further : Progress Note}
    (copied : Copied rulebook program entries copies progress.lookup)
    (done :
      Staging.stageTarget rulebook target rule others copies progress =
        (.ok result, further)) :
    Copied rulebook program (entries ++ entriesOf target (rule :: others)) result
      further.lookup := by
  obtain ⟨staged, next, named, made, applied, rfl⟩ := copied.of_stageTarget done
  have asked := Lookup.reaches_askMethod progress.lookup target.type target.method
  have sameProgram :
      (progress.lookup.askMethod target.type target.method).2.program = program := by
    rw [asked.program_eq, copied.reached.program_eq]
    rfl
  have copy := (isCopy_of_findOrCopy copied asked made).2
  obtain ⟨nextMethod, ran, nextCopy⟩ := isCopy_of_applyRules copy sameProgram applied
  have nextNamed : names program next.method target = true := by
    rw [nextMethod]
    exact named
  refine ⟨copied.reached.trans (asked.trans ran), nodup_put copied.distinct, ?_, ?_, ?_⟩
  · intro other member
    rw [meantFor_append, meantFor_entriesOf]
    by_cases same : other.method = next.method
    · obtain rfl := eq_of_mem_put copied.distinct member same
      rw [if_pos nextNamed, nextMethod]
      exact nextCopy
    · have oldMember := (mem_put_iff_of_ne same copies).mp member
      rw [names_eq_false nextNamed same, if_neg Bool.false_ne_true, List.append_nil]
      exact (copied.copy other oldMember).later (asked.trans ran)
  · intro other member
    rw [meantFor_append, meantFor_entriesOf]
    by_cases same : other.method = next.method
    · rw [same, if_pos nextNamed]
      exact List.append_ne_nil_of_right_ne_nil _ (List.cons_ne_nil _ _)
    · have oldMember := (mem_put_iff_of_ne same copies).mp member
      exact List.append_ne_nil_of_left_ne_nil (copied.meant other oldMember) _
  · intro entry member
    rcases List.mem_append.mp member with earlier | new
    · obtain ⟨other, oldMember, otherNamed⟩ := copied.covered entry earlier
      by_cases same : other.method = next.method
      · exact ⟨next, mem_put_self next copies, same ▸ otherNamed⟩
      · exact ⟨other, (mem_put_iff_of_ne same copies).mpr oldMember, otherNamed⟩
    · obtain ⟨application, _, rfl⟩ := List.mem_map.mp new
      exact ⟨next, mem_put_self next copies, nextNamed⟩

/-- Targets are staged one part of the list after another. -/
theorem stageAll_append (earlier later : List (MethodKey × List Application))
    (copies : List Staged) (progress : Progress Note) :
    stageAll rulebook (earlier ++ later) copies progress =
      match stageAll rulebook earlier copies progress with
      | (.error error, progress) => (.error error, progress)
      | (.ok copies, progress) => stageAll rulebook later copies progress := by
  induction earlier generalizing copies progress with
  | nil => rfl
  | cons target earlier inductionHypothesis =>
      rcases target with ⟨key, _ | ⟨rule, others⟩⟩
      · exact inductionHypothesis copies progress
      · rw [List.cons_append, stageAll, stageAll]
        split
        · rfl
        · exact inductionHypothesis _ _

/-- What every target keeps, as long as staging goes on, all targets keep. -/
theorem stageAll_keeps
    (Kept : List (MethodKey × Application) → List Staged → Progress Note → Prop)
    (step :
      ∀ {target : MethodKey} {rule : Application} {others : List Application}
        {entries : List (MethodKey × Application)} {copies result : List Staged}
        {progress further : Progress Note},
        Kept entries copies progress →
          stageTarget rulebook target rule others copies progress = (.ok result, further) →
            Kept (entries ++ entriesOf target (rule :: others)) result further) :
    ∀ {targets : List (MethodKey × List Application)}
      {entries : List (MethodKey × Application)} {copies result : List Staged}
      {progress further : Progress Note},
      Kept entries copies progress →
        stageAll rulebook targets copies progress = (.ok result, further) →
          Kept
            (entries ++ targets.flatMap fun (target, applications) =>
              entriesOf target applications)
            result further
  | [], entries, copies, result, progress, further, kept, done => by
      obtain ⟨resultEq, rfl⟩ := Prod.mk.inj done
      obtain rfl := Except.ok.inj resultEq
      rw [List.flatMap_nil, List.append_nil]
      exact kept
  | (target, []) :: targets, entries, copies, result, progress, further, kept, done => by
      rw [List.flatMap_cons]
      exact stageAll_keeps Kept step kept done
  | (target, rule :: others) :: targets, entries, copies, result, progress, further, kept,
      done => by
      unfold stageAll at done
      split at done
      · cases done
      · rename_i staged
        rw [List.flatMap_cons, ← List.append_assoc]
        exact stageAll_keeps Kept step (step kept staged) done

/-- After all targets, the copies are made by all entries of the plan. -/
theorem Copied.stageAll
    {targets : List (MethodKey × List Application)} {entries : List (MethodKey × Application)}
    {copies result : List Staged} {progress further : Progress Note}
    (copied : Copied rulebook program entries copies progress.lookup)
    (done : Staging.stageAll rulebook targets copies progress = (.ok result, further)) :
    Copied rulebook program
      (entries ++ targets.flatMap fun (target, applications) => entriesOf target applications)
      result further.lookup :=
  stageAll_keeps
    (fun entries copies progress => Copied rulebook program entries copies progress.lookup)
    Copied.stageTarget copied done

end BytecodePatch.Staging
