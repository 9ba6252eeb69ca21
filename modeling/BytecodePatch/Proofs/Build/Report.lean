import BytecodePatch.Proofs.Body.Bytes
import BytecodePatch.Proofs.Body.Listing
import BytecodePatch.Proofs.Build.Records
import BytecodePatch.Proofs.Strict.Build

/-!
# Reports of builds

A successful build reports one entry for each method that it patched, in the order in which
the plan first names the methods. An entry stands under the target that first named its
method, and has the rules of all targets that name it. Its image is that of the new body: the
bytes of the image can be read and loaded again, and give a body with the same listing.
-/

namespace BytecodePatch.Build

variable {Note : Type} {rulebook : Rulebook Note} {program : Program} {plan : Plan}
  {report : Report}

/-! ## Entries of a report -/

/-- The body that the copy of a method brings is its own. -/
theorem bodyAmong_eq
    {copies : List Staged} {staged : Staged}
    (distinct : (copies.map Staged.method).Nodup) (member : staged ∈ copies) :
    bodyAmong copies staged.method.numbers = some staged.body := by
  obtain ⟨body, brought⟩ := exists_bodyAmong member
  obtain ⟨other, otherMember, sameNumbers, bodyEq⟩ := exists_of_bodyAmong brought
  have sameMethod := MemberPlace.numbers_inj.mp sameNumbers
  rw [brought, ← bodyEq, List.inj_on_of_nodup_map distinct otherMember member sameMethod]

/-- After its commit, the method of a copy is committed with the body of the copy. -/
theorem method?_foldl_commit
    {entries : List (MethodKey × Application)} {copies : List Staged} {lookup : Lookup}
    {staged : Staged}
    (copied : Staging.Copied rulebook program entries copies lookup)
    (member : staged ∈ copies) :
    ∃ method,
      (copies.foldl commit program).method? staged.method = some method ∧
        method.state = .committed ∧ method.body = some staged.body := by
  obtain ⟨method, found⟩ := Option.isSome_iff_exists.mp (copied.present staged member)
  rw [Program.method?_eq] at found
  refine ⟨{ method with body := some staged.body, state := .committed }, ?_, rfl, rfl⟩
  rw [Program.method?_eq, foldl_commit copies program copied.distinct,
    Program.methodAt?_mapMethods, found, bodyAmong_eq copied.distinct member]
  rfl

/-- A report on the copies that a staging left. -/
structure OnCopies
    (rulebook : Rulebook Note) (program : Program) (plan : Plan) (report : Report)
    (copies : List Staged) (lookup : Lookup) : Prop where
  copied : Staging.Copied rulebook program plan.entries copies lookup
  recorded : Staging.Recorded program plan.entries copies
  targets : report.targets = copies.map fun staged => reportOn staged staged.body.image

/-- A successful build reports on the copies that its staging left, and commits them. -/
theorem exists_onCopies_of_run
    (succeeded : (run program rulebook plan).result = .ok report) :
    ∃ copies lookup,
      OnCopies rulebook program plan report copies lookup ∧
        (run program rulebook plan).program = copies.foldl commit program := by
  cases known : unknownRule? rulebook plan with
  | some error => simp [run, known] at succeeded
  | none =>
      rw [run_of_known known] at succeeded ⊢
      split at succeeded
      · cases succeeded
      · rename_i copies progress staged
        have copied := Staging.Copied.start.stageAll staged
        have recorded := Staging.Recorded.start.stageAll Staging.Copied.start staged
        obtain rfl := Except.ok.inj succeeded
        exact ⟨copies, progress.lookup, ⟨copied, recorded, rfl⟩, rfl⟩

/-- What an entry of a report says of its method, in a program before the build and the one
after it. The image is the one of the new body, and stands for it. As long as lengths have 64
bits and positions have 32, its bytes can be read and loaded again, into a body with the same
listing. -/
structure Describes
    (program result : Program) (plan : Plan) (entry : TargetReport) : Prop where
  rules :
    entry.rules =
      (Staging.meantFor program entry.method plan.entries).map fun planned => planned.2.rule
  before :
    ∃ method original,
      program.method? entry.method = some method ∧ method.body = some original ∧
        entry.before = original.code.length
  after :
    ∃ method body,
      result.method? entry.method = some method ∧ method.state = entry.state ∧
        method.body = some body ∧ body.flatten = .ok entry.image ∧
          entry.after = body.code.length ∧ entry.image.length = body.code.length ∧
            (entry.image.Addressable → body.code.length ≤ UInt32.size →
              Image.ofBytes entry.image.bytes = .ok entry.image ∧
                ∀ tag,
                  ∃ loaded,
                    entry.image.load tag = .ok loaded ∧
                      ∀ shown palette,
                        loaded.listing shown palette = body.listing shown palette)

/-- A report tells what a build did. Its entries are for different methods, in the order in
which the plan first names them, and have all rules of the plan between them. -/
structure Faithful (program result : Program) (plan : Plan) (report : Report) : Prop where
  distinct : (report.targets.map TargetReport.method).Nodup
  order :
    report.targets.map TargetReport.method =
      (Staging.placesOf program plan.entries).eraseDups
  ruleCount : report.ruleCount = plan.ruleCount
  describes : ∀ entry ∈ report.targets, Describes program result plan entry

namespace OnCopies

variable {copies : List Staged} {lookup : Lookup} {staged : Staged}

theorem methods_eq (onCopies : OnCopies rulebook program plan report copies lookup) :
    report.targets.map TargetReport.method = copies.map Staged.method := by
  rw [onCopies.targets, List.map_map]
  rfl

/-- The rules of all entries of a report are the rules of the plan. -/
theorem ruleCount_eq (onCopies : OnCopies rulebook program plan report copies lookup) :
    report.ruleCount = plan.ruleCount := by
  have covered :
      ∀ entry ∈ plan.entries,
        ∃ place ∈ copies.map Staged.method, Staging.names program place entry.1 = true := by
    intro entry member
    obtain ⟨staged, stagedMember, named⟩ := onCopies.copied.covered entry member
    exact ⟨staged.method, List.mem_map_of_mem stagedMember, named⟩
  have sorted := Staging.perm_meantFor onCopies.copied.distinct covered
  calc
    report.ruleCount = (copies.map fun staged => staged.rules.length).sum := by
      rw [Report.ruleCount, ← List.sum_eq_foldl, onCopies.targets, List.map_map]
      rfl
    _ = (copies.map fun staged =>
          (Staging.meantFor program staged.method plan.entries).length).sum := by
      congr 1
      apply List.map_congr_left
      intro staged member
      rw [(onCopies.recorded.records staged member).rules, List.length_map]
    _ = plan.entries.length := by
      rw [← sorted.length_eq, List.length_flatMap, List.map_map]
      rfl
    _ = plan.ruleCount := by
      rw [Plan.ruleCount, ← List.sum_eq_foldl, Plan.entries, List.length_flatMap]
      simp only [List.length_map]

/-- The entry for a copy of sound code describes the method of the copy. -/
theorem describes
    (onCopies : OnCopies rulebook program plan report copies lookup)
    (member : staged ∈ copies) (sound : staged.body.code.Sound) :
    Describes program (copies.foldl commit program) plan (reportOn staged staged.body.image) := by
  have records := onCopies.recorded.records staged member
  obtain ⟨method, found, committed, bodyEq⟩ := method?_foldl_commit onCopies.copied member
  have length : staged.body.image.length = staged.body.code.length := by
    rw [sound.linked.length_eq, Image.length, Body.image, List.length_map]
  refine ⟨records.rules, records.before, method, staged.body, found, committed, bodyEq,
    Body.flatten_of_sound sound, rfl, length, ?_⟩
  intro addressable small
  have loadable := Body.loadable_image sound
  refine ⟨Image.ofBytes_bytes addressable loadable, ?_⟩
  intro tag
  have loads : staged.body.image.load tag = .ok ⟨_, _, _⟩ :=
    Image.load_eq_ok_iff.mpr ⟨loadable, rfl⟩
  exact ⟨_, loads, Body.listing_of_load sound small loads⟩

/-- No two entries are for one method. -/
theorem eq_of_method
    (onCopies : OnCopies rulebook program plan report copies lookup)
    (member : staged ∈ copies) {entry : TargetReport} (entryMember : entry ∈ report.targets)
    (same : entry.method = staged.method) :
    entry = reportOn staged staged.body.image := by
  rw [onCopies.targets] at entryMember
  obtain ⟨other, otherMember, rfl⟩ := List.mem_map.mp entryMember
  rw [List.inj_on_of_nodup_map onCopies.copied.distinct otherMember member same]

/-- An entry under a target that names a method is the one for this method. -/
theorem eq_of_target
    {target : MethodKey} (onCopies : OnCopies rulebook program plan report copies lookup)
    (member : staged ∈ copies) (named : Staging.names program staged.method target = true)
    {entry : TargetReport} (entryMember : entry ∈ report.targets)
    (same : entry.target = target) :
    entry = reportOn staged staged.body.image := by
  apply onCopies.eq_of_method member entryMember
  rw [onCopies.targets] at entryMember
  obtain ⟨other, otherMember, rfl⟩ := List.mem_map.mp entryMember
  have otherNamed := (onCopies.recorded.records other otherMember).named
  have otherTarget : other.target = target := same
  rw [otherTarget] at otherNamed
  exact Staging.eq_of_names otherNamed named

/-- A target finds the entry for its method if the entry stands under it, and else none. -/
theorem get?_eq
    {target : MethodKey} (onCopies : OnCopies rulebook program plan report copies lookup)
    (member : staged ∈ copies) (named : Staging.names program staged.method target = true) :
    report.get? target =
      if staged.target = target then some (reportOn staged staged.body.image) else none := by
  have reported : reportOn staged staged.body.image ∈ report.targets := by
    rw [onCopies.targets]
    exact List.mem_map_of_mem member
  cases found : report.get? target with
  | none =>
      have missing := List.find?_eq_none.mp found _ reported
      exact (if_neg fun here => missing (decide_eq_true here)).symm
  | some entry =>
      have here : entry.target = target := by
        simpa using List.find?_some found
      have entryEq :=
        onCopies.eq_of_target member named (List.mem_of_find?_eq_some found) here
      rw [entryEq] at here ⊢
      exact (if_pos here).symm

end OnCopies

/-- The report of a successful build tells what the build did, as long as bodies have code
that was made. -/
theorem faithful_of_run
    (programMade : program.Made) (keeps : rulebook.KeepsMade)
    (succeeded : (run program rulebook plan).result = .ok report) :
    Faithful program (run program rulebook plan).program plan report := by
  obtain ⟨copies, lookup, onCopies, programEq⟩ := exists_onCopies_of_run succeeded
  refine ⟨?_, ?_, onCopies.ruleCount_eq, ?_⟩
  · rw [onCopies.methods_eq]
    exact onCopies.copied.distinct
  · rw [onCopies.methods_eq]
    exact onCopies.recorded.order
  · intro entry member
    rw [onCopies.targets] at member
    obtain ⟨staged, stagedMember, rfl⟩ := List.mem_map.mp member
    have sound := (onCopies.copied.made programMade keeps staged stagedMember).sound
    rw [programEq]
    exact onCopies.describes stagedMember sound

/-- A method that is named by two targets, one after and one before another method. Its rules
stand in one entry, which comes second. -/
theorem faithful_of_run_two_names :
    let code := (Code.empty 0).run
      [.append (.plain .ret), .insertBefore ⟨0, 0⟩ ⟨.branch, .target ⟨0, 0⟩⟩]
    let method (name : String) : MethodDecl :=
      ⟨name, "void", [], some ⟨[], [], code⟩, [], .unpatched⟩
    let program : Program := ⟨[⟨"m", [⟨"T", [], [method "f", method "g"]⟩]⟩]⟩
    let rulebook : Rulebook Unit :=
      ⟨[("first", addReturn (.ok ())), ("second", addReturn (.ok ()))]⟩
    let plan : Plan :=
      ⟨[(⟨"T", "g"⟩, [⟨"second", .null⟩]), (⟨"T", "f"⟩, [⟨"second", .null⟩]),
        (⟨"T", "void g()"⟩, [⟨"first", .null⟩])]⟩
    program.Made ∧ rulebook.KeepsMade ∧
      ∃ report,
        (run program rulebook plan).result = .ok report ∧
          Faithful program (run program rulebook plan).program plan report ∧
            (report.targets.map fun entry => (entry.method.index, entry.rules, entry.after)) =
              [(1, ["second", "first"], 4), (0, ["second"], 3)] := by
  intro code method program rulebook plan
  have made : code.Made := (Code.Made.of_origin (.empty 0)).run _
  have programMade : program.Made := by
    intro numbers held body found bodyEq
    have heldEq : held = method "f" ∨ held = method "g" := by
      rcases numbers with ⟨_ | module, _ | type, _ | _ | index⟩ <;> cases found
      · exact Or.inl rfl
      · exact Or.inr rfl
    have bodyIs : body = ⟨[], [], code⟩ := by
      rcases heldEq with rfl | rfl <;> exact (Option.some.inj bodyEq).symm
    rw [bodyIs]
    exact made
  have keeps : rulebook.KeepsMade := by
    intro entry member task lookup _ bodyMade
    have done :
        ((entry.2 task).run lookup).1.body.code =
          task.body.code.run [.append (.plain .ret)] := by
      simp only [rulebook, List.mem_cons, List.not_mem_nil, or_false] at member
      rcases member with rfl | rfl <;> rfl
    rw [done]
    exact bodyMade.run _
  have shown :
      ((run program rulebook plan).result.toOption.map fun report =>
        report.targets.map fun entry => (entry.method.index, entry.rules, entry.after)) =
          some [(1, ["second", "first"], 4), (0, ["second"], 3)] := by
    decide +kernel
  obtain ⟨report, succeeded, entries⟩ := Option.map_eq_some_iff.mp shown
  rw [toOption_eq_some_iff] at succeeded
  exact ⟨programMade, keeps, report, succeeded,
    faithful_of_run programMade keeps succeeded, entries⟩

/-! ## The entry of a target -/

/-- The target under which the first application for a method stands. -/
def firstTarget? (program : Program) (plan : Plan) (method : MemberPlace) : Option MethodKey :=
  (Staging.meantFor program method plan.entries).head?.map Prod.fst

/-- A report has an entry under every target of its plan with an application. -/
def AnswersAll (program : Program) (plan : Plan) (report : Report) : Prop :=
  ∀ target applications,
    (target, applications) ∈ plan.targets →
      applications ≠ [] →
        ∃ entry,
          report.get? target = some entry ∧
            Lookup.searchMethod program target.type target.method = .ok entry.method ∧
              ∀ application ∈ applications, application.rule ∈ entry.rules

/-- Only the first of two names of a method has an entry. -/
theorem not_answersAll_of_two_names :
    let method : MethodDecl := ⟨"f", "void", [], some ⟨[], [], .empty 0⟩, [], .unpatched⟩
    let program : Program := ⟨[⟨"m", [⟨"T", [], [method]⟩]⟩]⟩
    let rulebook : Rulebook Unit :=
      ⟨[("first", addReturn (.ok ())), ("second", addReturn (.ok ()))]⟩
    let plan : Plan :=
      ⟨[(⟨"T", "f"⟩, [⟨"first", .null⟩]), (⟨"T", "void f()"⟩, [⟨"second", .null⟩])]⟩
    ∃ report,
      (run program rulebook plan).result = .ok report ∧ ¬AnswersAll program plan report := by
  intro method program rulebook plan
  have missing :
      ((run program rulebook plan).result.toOption.map fun report =>
        (report.get? ⟨"T", "void f()"⟩).isNone) = some true := by
    decide +kernel
  obtain ⟨report, succeeded, absent⟩ := Option.map_eq_some_iff.mp missing
  refine ⟨report, toOption_eq_some_iff.mp succeeded, ?_⟩
  intro answers
  obtain ⟨entry, found, _⟩ :=
    answers ⟨"T", "void f()"⟩ [⟨"second", .null⟩] (by simp [plan]) (List.cons_ne_nil _ _)
  simp [found] at absent

/-- What a report has for a target of its plan. One entry is for the method of the target and
has the rules of the target. It stands under the target that first named the method, so that
any other one has no entry of its own. -/
structure Reports
    (program : Program) (plan : Plan) (report : Report) (target : MethodKey)
    (applications : List Application) (entry : TargetReport) : Prop where
  member : entry ∈ report.targets
  method : Lookup.searchMethod program target.type target.method = .ok entry.method
  only : ∀ other ∈ report.targets, other.method = entry.method → other = entry
  rules : ∀ application ∈ applications, application.rule ∈ entry.rules
  get? :
    report.get? target =
      if firstTarget? program plan entry.method = some target then some entry else none

/-- Every target of a plan with an application is reported on, if the build succeeds. -/
theorem exists_reports_of_run
    {target : MethodKey} {applications : List Application}
    (succeeded : (run program rulebook plan).result = .ok report)
    (planned : (target, applications) ∈ plan.targets) (applied : applications ≠ []) :
    ∃ entry, Reports program plan report target applications entry := by
  obtain ⟨copies, lookup, onCopies, _⟩ := exists_onCopies_of_run succeeded
  have listed :
      ∀ application ∈ applications, (target, application) ∈ plan.entries := by
    intro application member
    exact List.mem_flatMap.mpr ⟨_, planned, List.mem_map_of_mem member⟩
  obtain ⟨first, firstMember⟩ := List.exists_mem_of_ne_nil applications applied
  obtain ⟨staged, member, named⟩ := onCopies.copied.covered _ (listed first firstMember)
  have records := onCopies.recorded.records staged member
  refine ⟨reportOn staged staged.body.image, ?_, Staging.names_iff.mp named, ?_, ?_, ?_⟩
  · rw [onCopies.targets]
    exact List.mem_map_of_mem member
  · exact fun other otherMember same => onCopies.eq_of_method member otherMember same
  · intro application applicationMember
    have meant : (target, application) ∈ Staging.meantFor program staged.method plan.entries :=
      List.mem_filter.mpr ⟨listed application applicationMember, named⟩
    have rulesEq : (reportOn staged staged.body.image).rules = _ := records.rules
    rw [rulesEq]
    exact List.mem_map.mpr ⟨_, meant, rfl⟩
  · have firstEq :
        firstTarget? program plan (reportOn staged staged.body.image).method =
          some staged.target :=
      records.target
    simp only [firstEq, Option.some.injEq]
    exact onCopies.get?_eq member named

/-- The second name of a method is reported on in the entry of the first one. -/
theorem exists_reports_of_run_two_names :
    let method : MethodDecl := ⟨"f", "void", [], some ⟨[], [], .empty 0⟩, [], .unpatched⟩
    let program : Program := ⟨[⟨"m", [⟨"T", [], [method]⟩]⟩]⟩
    let rulebook : Rulebook Unit :=
      ⟨[("first", addReturn (.ok ())), ("second", addReturn (.ok ()))]⟩
    let target : MethodKey := ⟨"T", "void f()"⟩
    let applications : List Application := [⟨"second", .null⟩]
    let plan : Plan := ⟨[(⟨"T", "f"⟩, [⟨"first", .null⟩]), (target, applications)]⟩
    (target, applications) ∈ plan.targets ∧ applications ≠ [] ∧
      ∃ report,
        (run program rulebook plan).result = .ok report ∧
          (∃ entry, Reports program plan report target applications entry) ∧
            (report.targets.map fun entry => (entry.target, entry.rules)) =
              [(⟨"T", "f"⟩, ["first", "second"])] := by
  intro method program rulebook target applications plan
  have planned : (target, applications) ∈ plan.targets :=
    List.mem_cons_of_mem _ List.mem_cons_self
  have applied : applications ≠ [] := List.cons_ne_nil _ _
  have shown :
      ((run program rulebook plan).result.toOption.map fun report =>
        report.targets.map fun entry => (entry.target, entry.rules)) =
          some [(⟨"T", "f"⟩, ["first", "second"])] := by
    decide +kernel
  obtain ⟨report, succeeded, entries⟩ := Option.map_eq_some_iff.mp shown
  rw [toOption_eq_some_iff] at succeeded
  exact ⟨planned, applied, report, succeeded,
    exists_reports_of_run succeeded planned applied, entries⟩

end BytecodePatch.Build
