import BytecodePatch.Proofs.Build.Staging

/-!
# What copies have on record

Beside its body, a copy keeps the target that first named its method, the rules that were run
on it and the length that its body had before them. After some applications these are the
ones that the plan so far says: the rules are those meant for the method, in their order, and
the copies stand in the order in which the plan first names their methods.
-/

namespace BytecodePatch.Staging

variable {Note : Type} {rulebook : Rulebook Note} {program : Program}
  {entries : List (MethodKey × Application)} {copies result : List Staged} {target : MethodKey}

/-! ## One copy -/

/-- Rules that succeed change only the body of a copy, its list of rules and its state. -/
theorem of_applyRules :
    ∀ {applications : List Application} {staged next : Staged} {progress further : Progress Note},
      applyRules rulebook target applications staged progress = (.ok next, further) →
        ∃ body state,
          next =
            { staged with
              body
              rules := staged.rules ++ applications.map Application.rule
              state }
  | [], staged, next, progress, further, done => by
      obtain ⟨nextEq, _⟩ := Prod.mk.inj done
      refine ⟨staged.body, staged.state, ?_⟩
      rw [← Except.ok.inj nextEq, List.map_nil, List.append_nil]
  | application :: applications, staged, next, progress, further, done => by
      unfold applyRules at done
      split at done
      · cases done
      · rename_i between applied
        obtain ⟨_, _, _, _, _, _, rfl⟩ := of_applyRule applied
        obtain ⟨body, state, rfl⟩ := of_applyRules done
        exact ⟨body, state, by simp⟩

/-- The record of a copy: the rules that were meant for its method, the target that first
named it, and the length of its body before them. -/
structure Records
    (program : Program) (entries : List (MethodKey × Application)) (staged : Staged) : Prop where
  rules :
    staged.rules =
      (meantFor program staged.method entries).map fun entry => entry.2.rule
  target : (meantFor program staged.method entries).head?.map Prod.fst = some staged.target
  before :
    ∃ method original,
      program.method? staged.method = some method ∧ method.body = some original ∧
        staged.before = original.code.length

/-- Applications for other methods make no difference to the record of a copy. -/
theorem Records.mono
    {staged : Staged} {more : List (MethodKey × Application)}
    (records : Records program entries staged)
    (others : meantFor program staged.method more = []) :
    Records program (entries ++ more) staged where
  rules := by rw [meantFor_append, others, List.append_nil, records.rules]
  target := by rw [meantFor_append, others, List.append_nil, records.target]
  before := records.before

/-- A copy stands under a target that names its method. -/
theorem Records.named {staged : Staged} (records : Records program entries staged) :
    names program staged.method staged.target = true := by
  obtain ⟨entry, first, targetEq⟩ := Option.map_eq_some_iff.mp records.target
  rw [← targetEq]
  exact (List.mem_filter.mp (List.mem_of_head? first)).2

/-- The applications of a target are put on the record of the copy that they run on, whether
it was made before or is new. -/
theorem records_of_applyRules
    {rule : Application} {others : List Application} {staged next : Staged} {lookup : Lookup}
    {progress further : Progress Note}
    (copied : Copied rulebook program entries copies lookup)
    (records : ∀ staged ∈ copies, Records program entries staged)
    (named : names program staged.method target = true)
    (made : findOrCopy program staged.method target copies = .ok staged)
    (applied :
      applyRules rulebook target (rule :: others) staged progress = (.ok next, further)) :
    Records program (entries ++ entriesOf target (rule :: others)) next := by
  obtain ⟨body, state, rfl⟩ := of_applyRules applied
  have meantEq :
      meantFor program staged.method (entries ++ entriesOf target (rule :: others)) =
        meantFor program staged.method entries ++ entriesOf target (rule :: others) := by
    rw [meantFor_append, meantFor_entriesOf, if_pos named]
  have rulesEq :
      (entriesOf target (rule :: others)).map (fun entry => entry.2.rule) =
        (rule :: others).map Application.rule := by
    rw [entriesOf, List.map_map]
    rfl
  rcases (of_findOrCopy made).2 with member | ⟨absent, fresh⟩
  · have held := records staged member
    refine ⟨?_, ?_, held.before⟩
    · rw [meantEq, List.map_append, rulesEq, ← held.rules]
    · have some : meantFor program staged.method entries ≠ [] := copied.meant staged member
      rw [meantEq, List.head?_append_of_ne_nil _ some, held.target]
  · have nothing := copied.meantFor_eq_nil absent
    obtain ⟨method, original, found, _, bodyEq, stagedEq⟩ := copyOf_eq_ok_iff.mp fresh
    refine ⟨?_, ?_, method, original, found, bodyEq, ?_⟩
    · rw [meantEq, nothing, List.nil_append, rulesEq, stagedEq]
      rfl
    · rw [meantEq, nothing, stagedEq]
      rfl
    · rw [stagedEq]

/-! ## All copies -/

/-- The methods that applications are meant for, one after another. -/
def placesOf (program : Program) (entries : List (MethodKey × Application)) :
    List MemberPlace :=
  entries.filterMap fun entry =>
    (Lookup.searchMethod program entry.1.type entry.1.method).toOption

/-- The methods of the applications of a target are its method, over and over. -/
theorem placesOf_entriesOf
    {place : MemberPlace} (named : names program place target = true)
    (applications : List Application) :
    placesOf program (entriesOf target applications) =
      List.replicate applications.length place := by
  have found := toOption_eq_some_iff.mpr (names_iff.mp named)
  induction applications with
  | nil => rfl
  | cons application applications inductionHypothesis =>
      rw [List.length_cons, List.replicate_succ, ← inductionHypothesis]
      exact List.filterMap_cons_some found

/-- Without repetitions, an item that is added several times counts once, if it is new. -/
private theorem eraseDups_append_replicate
    (places : List MemberPlace) (place : MemberPlace) (more : Nat) :
    (places ++ List.replicate (more + 1) place).eraseDups =
      if place ∈ places then places.eraseDups else places.eraseDups ++ [place] := by
  rw [List.eraseDups_append]
  by_cases present : place ∈ places
  · simp [present, List.removeAll]
  · have once : (List.replicate (more + 1) place).eraseDups = [place] := by
      rw [List.replicate_succ, List.eraseDups_cons]
      simp
    have added :
        (List.replicate (more + 1) place).removeAll places = List.replicate (more + 1) place := by
      simp [List.removeAll, present]
    rw [if_neg present, added, once]

/-- The records of all copies. The copies stand in the order in which the plan first names
their methods. -/
structure Recorded
    (program : Program) (entries : List (MethodKey × Application)) (copies : List Staged) :
    Prop where
  order : copies.map Staged.method = (placesOf program entries).eraseDups
  records : ∀ staged ∈ copies, Records program entries staged

namespace Recorded

theorem start : Recorded program [] [] where
  order := rfl
  records := fun _ member => absurd member List.not_mem_nil

theorem stageTarget
    {rule : Application} {others : List Application} {progress further : Progress Note}
    (recorded : Recorded program entries copies)
    (copied : Copied rulebook program entries copies progress.lookup)
    (done :
      Staging.stageTarget rulebook target rule others copies progress =
        (.ok result, further)) :
    Recorded program (entries ++ entriesOf target (rule :: others)) result := by
  obtain ⟨staged, next, named, made, applied, rfl⟩ := copied.of_stageTarget done
  have records := records_of_applyRules copied recorded.records named made applied
  have sameMethod : next.method = staged.method := by
    obtain ⟨_, _, rfl⟩ := of_applyRules applied
    rfl
  constructor
  · -- the method is new among the places exactly if it had no copy
    have added :
        placesOf program (entriesOf target (rule :: others)) =
          List.replicate (others.length + 1) staged.method :=
      placesOf_entriesOf named (rule :: others)
    have placed :
        placesOf program (entries ++ entriesOf target (rule :: others)) =
          placesOf program entries ++ List.replicate (others.length + 1) staged.method := by
      rw [← added]
      exact List.filterMap_append
    rw [map_method_put, placed, eraseDups_append_replicate, sameMethod, recorded.order]
    simp only [List.mem_eraseDups]
  · intro other member
    by_cases same : other.method = next.method
    · rw [eq_of_mem_put copied.distinct member same]
      exact records
    · have oldMember := (mem_put_iff_of_ne same copies).mp member
      apply (recorded.records other oldMember).mono
      rw [sameMethod] at same
      rw [meantFor_entriesOf, names_eq_false named same, if_neg Bool.false_ne_true]

theorem stageAll
    {targets : List (MethodKey × List Application)} {progress further : Progress Note}
    (recorded : Recorded program entries copies)
    (copied : Copied rulebook program entries copies progress.lookup)
    (done : Staging.stageAll rulebook targets copies progress = (.ok result, further)) :
    Recorded program
      (entries ++ targets.flatMap fun (target, applications) => entriesOf target applications)
      result := by
  have kept :=
    stageAll_keeps
      (fun entries copies progress =>
        Copied rulebook program entries copies progress.lookup ∧
          Recorded program entries copies)
      (fun kept done => ⟨kept.1.stageTarget done, kept.2.stageTarget kept.1 done⟩)
      ⟨copied, recorded⟩ done
  exact kept.2

end Recorded

/-- Sorted by the methods that they are meant for, applications are still the same ones. -/
theorem perm_meantFor :
    ∀ {places : List MemberPlace} {entries : List (MethodKey × Application)},
      places.Nodup →
        (∀ entry ∈ entries, ∃ place ∈ places, names program place entry.1 = true) →
          (places.flatMap fun place => meantFor program place entries).Perm entries
  | [], [], _, _ => .nil
  | [], entry :: _, _, covered => by
      obtain ⟨place, member, _⟩ := covered entry List.mem_cons_self
      cases member
  | place :: places, entries, distinct, covered => by
      obtain ⟨fresh, distinctRest⟩ := List.nodup_cons.mp distinct
      let others := entries.filter fun entry => !names program place entry.1
      have coveredOthers :
          ∀ entry ∈ others, ∃ place ∈ places, names program place entry.1 = true := by
        intro entry member
        obtain ⟨entryMember, unnamed⟩ := List.mem_filter.mp member
        obtain ⟨found, foundMember, named⟩ := covered entry entryMember
        rcases List.mem_cons.mp foundMember with rfl | later
        · simp [named] at unnamed
        · exact ⟨found, later, named⟩
      have separate :
          (places.flatMap fun other => meantFor program other entries) =
            places.flatMap fun other => meantFor program other others := by
        apply List.flatMap_congr
        intro other member
        rw [meantFor, meantFor, List.filter_filter]
        apply List.filter_congr
        intro entry _
        by_cases named : names program other entry.1 = true
        · have apart : place ≠ other := fun same => fresh (same ▸ member)
          simp [named, names_eq_false named apart]
        · simp [named]
      calc
        ((place :: places).flatMap fun place => meantFor program place entries) =
            meantFor program place entries ++
              places.flatMap fun other => meantFor program other others := by
          rw [List.flatMap_cons, separate]
        List.Perm _ (meantFor program place entries ++ others) :=
          (perm_meantFor distinctRest coveredOthers).append_left _
        List.Perm _ entries := List.filter_append_perm _ entries

end BytecodePatch.Staging
