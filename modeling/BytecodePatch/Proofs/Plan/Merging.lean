import BytecodePatch.Plan.Manifest
import BytecodePatch.Proofs.Plan.Grouping
import Mathlib.Data.List.Induction

/-!
# Plans are groupings

A plan that is made of entries has their targets in the order in which they first appear, and
under each target its applications in the order of the entries. An entry is refused if an
earlier one has its target and its rule. Adding entries to such a plan is grouping all of them,
so it makes no difference whether entries are grouped at once, or some of them first and added
as a plan of their own.
-/

namespace BytecodePatch

section FirstAppearances

variable {α : Type} [BEq α] [LawfulBEq α]

private theorem eraseDups_concat (values : List α) (value : α) [Decidable (value ∈ values)] :
    (values ++ [value]).eraseDups =
      if value ∈ values then values.eraseDups else values.eraseDups ++ [value] := by
  rw [List.eraseDups_append]
  by_cases seen : value ∈ values
  · simp [List.removeAll, seen]
  · simp [List.removeAll, seen, List.eraseDups_cons]

private theorem nodup_eraseDups (values : List α) : values.eraseDups.Nodup := by
  classical
  induction values using List.reverseRecOn with
  | nil => exact List.nodup_nil
  | append_singleton values value inductionHypothesis =>
      rw [eraseDups_concat]
      by_cases seen : value ∈ values
      · rwa [if_pos seen]
      · rw [if_neg seen, ← List.concat_eq_append, List.nodup_concat, List.mem_eraseDups]
        exact ⟨seen, inductionHypothesis⟩

private theorem eraseDups_filter (keeps : α → Bool) (values : List α) :
    (values.filter keeps).eraseDups = values.eraseDups.filter keeps := by
  classical
  induction values using List.reverseRecOn with
  | nil => rfl
  | append_singleton values value inductionHypothesis =>
      rw [List.filter_append, eraseDups_concat]
      by_cases kept : keeps value
      · rw [List.filter_cons_of_pos kept, List.filter_nil, eraseDups_concat, inductionHypothesis]
        by_cases seen : value ∈ values
        · simp [seen, kept]
        · simp [seen, kept]
      · rw [List.filter_cons_of_neg kept, List.filter_nil, List.append_nil, inductionHypothesis]
        by_cases seen : value ∈ values
        · rw [if_pos seen]
        · simp [seen, kept]

end FirstAppearances

/-- What an entry demands, and what is reported if it was demanded before. -/
def Clash.ofEntry (entry : MethodKey × Application) : Clash :=
  ⟨entry.1, entry.2.rule⟩

namespace Plan

/-! ## Grouped entries -/

/-- The applications that entries have for a target. -/
def applicationsFor (target : MethodKey) (entries : List (MethodKey × Application)) :
    List Application :=
  (entries.filter fun entry => entry.1 = target).map Prod.snd

/-- The targets of entries in the order in which they first appear, each with its
applications. -/
def grouped (entries : List (MethodKey × Application)) :
    List (MethodKey × List Application) :=
  (entries.map Prod.fst).eraseDups.map fun target => (target, applicationsFor target entries)

variable {target : MethodKey} {application : Application}
  {entries first second : List (MethodKey × Application)}

theorem applicationsFor_append :
    applicationsFor target (first ++ second) =
      applicationsFor target first ++ applicationsFor target second := by
  rw [applicationsFor, List.filter_append, List.map_append]
  rfl

theorem mem_applicationsFor_iff :
    application ∈ applicationsFor target entries ↔ (target, application) ∈ entries := by
  simp [applicationsFor]

theorem applicationsFor_eq_nil_iff :
    applicationsFor target entries = [] ↔ target ∉ entries.map Prod.fst := by
  rw [List.eq_nil_iff_forall_not_mem, List.mem_map, not_exists]
  simp only [mem_applicationsFor_iff]
  constructor
  · intro none entry listed
    obtain ⟨member, named⟩ := listed
    exact none entry.2 (named ▸ member)
  · intro unnamed application member
    exact unnamed (target, application) ⟨member, rfl⟩

theorem targets_grouped (entries : List (MethodKey × Application)) :
    (grouped entries).map Prod.fst = (entries.map Prod.fst).eraseDups := by
  rw [grouped, List.map_map]
  exact List.map_id _

private theorem lookup_map
    (applications : MethodKey → List Application) (targets : List MethodKey) :
    (targets.map fun target => (target, applications target)).lookup target =
      if target ∈ targets then some (applications target) else none := by
  induction targets with
  | nil => rfl
  | cons head targets inductionHypothesis =>
      rw [List.map_cons, List.lookup_cons, inductionHypothesis]
      by_cases same : target = head
      · simp [same]
      · simp [same, beq_eq_false_iff_ne.mpr same]

theorem getD_get?_grouped :
    (get? ⟨grouped entries⟩ target).getD [] = applicationsFor target entries := by
  rw [get?, grouped, lookup_map]
  by_cases named : target ∈ (entries.map Prod.fst).eraseDups
  · rw [if_pos named, Option.getD_some]
  · rw [if_neg named, Option.getD_none,
      applicationsFor_eq_nil_iff.mpr (mt List.mem_eraseDups.mpr named)]

theorem has_grouped_iff {rule : String} :
    has ⟨grouped entries⟩ target rule = true ↔ ⟨target, rule⟩ ∈ entries.map Clash.ofEntry := by
  rw [has, getD_get?_grouped, List.any_eq_true, List.mem_map]
  constructor
  · intro held
    obtain ⟨application, member, named⟩ := held
    refine ⟨(target, application), mem_applicationsFor_iff.mp member, ?_⟩
    rw [Clash.ofEntry, eq_of_beq named]
  · intro demanded
    obtain ⟨⟨target, application⟩, member, same⟩ := demanded
    cases same
    exact ⟨application, mem_applicationsFor_iff.mpr member, beq_self_eq_true _⟩

private theorem addTo_map
    {applications changed : MethodKey → List Application}
    (added : changed target = applications target ++ [application])
    (kept : ∀ other, other ≠ target → changed other = applications other) :
    ∀ {targets : List MethodKey}, targets.Nodup → target ∈ targets →
      addTo target application (targets.map fun other => (other, applications other)) =
        targets.map fun other => (other, changed other)
  | [], _, member => absurd member List.not_mem_nil
  | head :: targets, distinct, member => by
      obtain ⟨apart, distinctRest⟩ := List.nodup_cons.mp distinct
      rw [List.map_cons, List.map_cons, addTo]
      by_cases same : head = target
      · subst same
        rw [if_pos rfl, added]
        congr 1
        apply List.map_congr_left
        intro other otherMember
        rw [kept other fun equal => apart (equal ▸ otherMember)]
      · have later : target ∈ targets := (List.mem_cons.mp member).resolve_left (Ne.symm same)
        rw [if_neg same, kept head same, addTo_map added kept distinctRest later]

/-- Adding an application to grouped entries is grouping one entry more. -/
theorem addTo_grouped :
    addTo target application (grouped entries) = grouped (entries ++ [(target, application)]) := by
  have added :
      applicationsFor target (entries ++ [(target, application)]) =
        applicationsFor target entries ++ [application] := by
    rw [applicationsFor_append]
    simp [applicationsFor]
  have kept :
      ∀ other, other ≠ target →
        applicationsFor other (entries ++ [(target, application)]) =
          applicationsFor other entries := by
    intro other apart
    rw [applicationsFor_append]
    simp [applicationsFor, Ne.symm apart]
  rw [grouped, grouped, List.map_append, List.map_singleton, eraseDups_concat]
  by_cases named : target ∈ entries.map Prod.fst
  · rw [if_pos named]
    exact addTo_map added kept (nodup_eraseDups _) (List.mem_eraseDups.mpr named)
  · have fresh :
        target ∉ ((entries.map Prod.fst).eraseDups.map fun other =>
          (other, applicationsFor other entries)).map Prod.fst := by
      have targets := targets_grouped entries
      rw [grouped] at targets
      rwa [targets, List.mem_eraseDups]
    have placed := addTo_append application [] fresh
    rw [List.append_nil] at placed
    rw [if_neg named, placed, List.map_append, List.map_singleton, added,
      applicationsFor_eq_nil_iff.mpr named]
    congr 1
    apply List.map_congr_left
    intro other member
    rw [kept other fun same => named (List.mem_eraseDups.mp (same ▸ member))]

theorem add_grouped :
    add ⟨grouped entries⟩ target application =
      if Clash.ofEntry (target, application) ∈ entries.map Clash.ofEntry then
        .error (Clash.ofEntry (target, application))
      else .ok ⟨grouped (entries ++ [(target, application)])⟩ := by
  rw [add, addTo_grouped]
  simp only [has_grouped_iff]
  rfl

/-! ## Adding entries -/

/-- What adding further entries to grouped ones can give. -/
inductive Additions (held further : List (MethodKey × Application)) :
    Except Clash Unit × Plan → Prop where
  | done (distinct : ((held ++ further).map Clash.ofEntry).Nodup) :
      Additions held further (.ok (), ⟨grouped (held ++ further)⟩)
  | stopped {before after : List (MethodKey × Application)} {entry : MethodKey × Application}
      (cut : further = before ++ entry :: after)
      (distinct : ((held ++ before).map Clash.ofEntry).Nodup)
      (repeated : Clash.ofEntry entry ∈ (held ++ before).map Clash.ofEntry) :
      Additions held further (.error (Clash.ofEntry entry), ⟨grouped (held ++ before)⟩)

/-- Whether or not an entry repeats another, the plan is a grouping. -/
theorem Additions.grouped
    {held further : List (MethodKey × Application)} {result : Except Clash Unit × Plan}
    (additions : Additions held further result) :
    ∃ entries, (entries.map Clash.ofEntry).Nodup ∧ result.2 = ⟨Plan.grouped entries⟩ := by
  cases additions with
  | done distinct => exact ⟨_, distinct, rfl⟩
  | stopped cut distinct repeated => exact ⟨_, distinct, rfl⟩

private theorem nodup_snoc
    {held : List (MethodKey × Application)} {entry : MethodKey × Application}
    (distinct : (held.map Clash.ofEntry).Nodup)
    (new : Clash.ofEntry entry ∉ held.map Clash.ofEntry) :
    ((held ++ [entry]).map Clash.ofEntry).Nodup := by
  rw [List.map_append, List.map_singleton, ← List.concat_eq_append, List.nodup_concat]
  exact ⟨new, distinct⟩

/-- Further entries repeat nothing, or one of them is the first that does. -/
private theorem nodup_or_repeated :
    ∀ (further : List (MethodKey × Application)) {held : List (MethodKey × Application)},
      (held.map Clash.ofEntry).Nodup →
        ((held ++ further).map Clash.ofEntry).Nodup ∨
          ∃ before entry after,
            further = before ++ entry :: after ∧
              ((held ++ before).map Clash.ofEntry).Nodup ∧
              Clash.ofEntry entry ∈ (held ++ before).map Clash.ofEntry
  | [], held, distinct => by
      rw [List.append_nil]
      exact Or.inl distinct
  | entry :: further, held, distinct => by
      by_cases repeated : Clash.ofEntry entry ∈ held.map Clash.ofEntry
      · refine Or.inr ⟨[], entry, further, rfl, ?_⟩
        rw [List.append_nil]
        exact ⟨distinct, repeated⟩
      · rcases nodup_or_repeated further (nodup_snoc distinct repeated) with
          distinctAll | ⟨before, later, after, cut, distinctBefore, repeatedLater⟩
        · rw [List.append_assoc, List.singleton_append] at distinctAll
          exact Or.inl distinctAll
        · rw [List.append_assoc, List.singleton_append] at distinctBefore repeatedLater
          exact Or.inr ⟨entry :: before, later, after, by rw [cut, List.cons_append],
            distinctBefore, repeatedLater⟩

private theorem addAll_grouped_of_nodup :
    ∀ {further held : List (MethodKey × Application)},
      ((held ++ further).map Clash.ofEntry).Nodup →
        addAll ⟨grouped held⟩ further = (.ok (), ⟨grouped (held ++ further)⟩)
  | [], held, _ => by rw [addAll, List.append_nil]
  | entry :: further, held, distinct => by
      rw [List.append_cons] at distinct ⊢
      have new : Clash.ofEntry entry ∉ held.map Clash.ofEntry := by
        rw [List.map_append, List.map_append, List.map_singleton] at distinct
        have before := distinct.of_append_left
        rw [← List.concat_eq_append, List.nodup_concat] at before
        exact before.1
      rw [addAll, add_grouped, if_neg new]
      exact addAll_grouped_of_nodup distinct

/-- Entries are added up to the first one that repeats an earlier one. -/
theorem additions_addAll
    {held : List (MethodKey × Application)} (distinct : (held.map Clash.ofEntry).Nodup)
    (further : List (MethodKey × Application)) :
    Additions held further (addAll ⟨grouped held⟩ further) := by
  rcases nodup_or_repeated further distinct with
    distinctAll | ⟨before, entry, after, cut, distinctBefore, repeated⟩
  · rw [addAll_grouped_of_nodup distinctAll]
    exact .done distinctAll
  · have stopped :
        addAll ⟨grouped held⟩ further =
          (.error (Clash.ofEntry entry), ⟨grouped (held ++ before)⟩) := by
      rw [cut, addAll_append (addAll_grouped_of_nodup distinctBefore), addAll, add_grouped,
        if_pos repeated]
    rw [stopped]
    exact .stopped cut distinctBefore repeated

/-- Entries can be added exactly if none of them repeats an earlier one. -/
theorem addAll_grouped_eq_ok_iff
    {held further : List (MethodKey × Application)} {plan : Plan}
    (distinct : (held.map Clash.ofEntry).Nodup) :
    addAll ⟨grouped held⟩ further = (.ok (), plan) ↔
      ((held ++ further).map Clash.ofEntry).Nodup ∧ plan = ⟨grouped (held ++ further)⟩ := by
  constructor
  · intro added
    have additions := additions_addAll distinct further
    rw [added] at additions
    cases additions with
    | done distinctAll => exact ⟨distinctAll, rfl⟩
  · intro possible
    obtain ⟨distinctAll, rfl⟩ := possible
    exact addAll_grouped_of_nodup distinctAll

private theorem ofEntries_eq :
    ofEntries entries = (addAll ⟨grouped []⟩ entries).1.map fun _ =>
      (addAll ⟨grouped []⟩ entries).2 := by
  have start : empty = ⟨grouped []⟩ := rfl
  rw [ofEntries, start]
  cases addAll ⟨grouped []⟩ entries with
  | mk answer plan => cases answer <;> rfl

/-- The number of applications grows by one with each. -/
private theorem ruleCount_addTo :
    ∀ {targets : List (MethodKey × List Application)},
      ruleCount ⟨addTo target application targets⟩ = ruleCount ⟨targets⟩ + 1 := by
  have counted :
      ∀ plan : Plan, plan.ruleCount = (plan.targets.map fun held => held.2.length).sum := by
    intro plan
    rw [ruleCount, List.sum_eq_foldl]
  simp only [counted]
  intro targets
  induction targets with
  | nil => rfl
  | cons held targets inductionHypothesis =>
      obtain ⟨other, applications⟩ := held
      rw [addTo]
      by_cases same : other = target
      · rw [if_pos same, List.map_cons, List.map_cons, List.sum_cons, List.sum_cons,
          List.length_append, List.length_singleton]
        exact Nat.add_right_comm ..
      · rw [if_neg same, List.map_cons, List.map_cons, List.sum_cons, List.sum_cons,
          inductionHypothesis]
        omega

theorem ruleCount_grouped (entries : List (MethodKey × Application)) :
    ruleCount ⟨grouped entries⟩ = entries.length := by
  induction entries using List.reverseRecOn with
  | nil => rfl
  | append_singleton entries entry inductionHypothesis =>
      rw [← addTo_grouped, ruleCount_addTo, inductionHypothesis, List.length_append,
        List.length_singleton]

theorem applied_grouped : ∀ held ∈ grouped entries, held.2 ≠ [] := by
  intro held member
  obtain ⟨target, named, rfl⟩ := List.mem_map.mp member
  rw [Ne, applicationsFor_eq_nil_iff, not_not]
  exact List.mem_eraseDups.mp named

/-- What making a plan of entries can give. -/
inductive Grouping (entries : List (MethodKey × Application)) : Except Clash Plan → Prop where
  | done {plan : Plan}
      (distinct : (entries.map Clash.ofEntry).Nodup)
      (targets : plan.targets = grouped entries)
      (count : plan.ruleCount = entries.length)
      (applied : ∀ held ∈ plan.targets, held.2 ≠ []) :
      Grouping entries (.ok plan)
  | clash {before after : List (MethodKey × Application)} {entry : MethodKey × Application}
      (cut : entries = before ++ entry :: after)
      (distinct : (before.map Clash.ofEntry).Nodup)
      (repeated : Clash.ofEntry entry ∈ before.map Clash.ofEntry) :
      Grouping entries (.error (Clash.ofEntry entry))

theorem grouping_ofEntries (entries : List (MethodKey × Application)) :
    Grouping entries (ofEntries entries) := by
  have start : (([] : List (MethodKey × Application)).map Clash.ofEntry).Nodup := List.nodup_nil
  have additions := additions_addAll start entries
  rw [ofEntries_eq]
  generalize addAll ⟨grouped []⟩ entries = result at additions ⊢
  cases additions with
  | done distinct => exact .done distinct rfl (ruleCount_grouped _) applied_grouped
  | stopped cut distinct repeated => exact .clash cut distinct repeated

theorem ofEntries_eq_ok_iff {plan : Plan} :
    ofEntries entries = .ok plan ↔
      (entries.map Clash.ofEntry).Nodup ∧ plan = ⟨grouped entries⟩ := by
  constructor
  · intro made
    have grouping := grouping_ofEntries entries
    rw [made] at grouping
    cases grouping with
    | done distinct targets count applied => exact ⟨distinct, congrArg Plan.mk targets⟩
  · intro possible
    obtain ⟨distinct, rfl⟩ := possible
    have added : addAll ⟨grouped []⟩ entries = (.ok (), ⟨grouped entries⟩) :=
      addAll_grouped_of_nodup distinct
    rw [ofEntries_eq, added]
    rfl

/-! ## Grouping again -/

theorem grouped_grouped (distinct : (entries.map Clash.ofEntry).Nodup) :
    Grouped ⟨grouped entries⟩ where
  distinct := by
    rw [targets_grouped]
    exact nodup_eraseDups _
  applied := applied_grouped
  rules := by
    intro held member
    obtain ⟨target, _, rfl⟩ := List.mem_map.mp member
    have demanded :
        ((applicationsFor target entries).map Application.rule).map (Clash.mk target) =
          (entries.filter fun entry => entry.1 = target).map Clash.ofEntry := by
      rw [applicationsFor, List.map_map, List.map_map]
      apply List.map_congr_left
      intro entry kept
      have named : entry.1 = target := by simpa using (List.mem_filter.mp kept).2
      rw [Clash.ofEntry, named]
      rfl
    apply List.Nodup.of_map (Clash.mk target)
    rw [demanded]
    exact distinct.sublist (List.filter_sublist.map _)

/-- Grouping entries that are grouped already changes nothing, and repeats nothing. -/
theorem regrouped (distinct : (entries.map Clash.ofEntry).Nodup) :
    ((Plan.entries ⟨grouped entries⟩).map Clash.ofEntry).Nodup ∧
      grouped (Plan.entries ⟨grouped entries⟩) = grouped entries := by
  -- the plan comes back from its entries, and only distinct entries make a plan
  have again := ofEntries_entries (grouped_grouped distinct)
  obtain ⟨distinctAgain, same⟩ := ofEntries_eq_ok_iff.mp again
  exact ⟨distinctAgain, (Plan.mk.inj same).symm⟩

theorem mem_entries_grouped_iff {entry : MethodKey × Application} :
    entry ∈ Plan.entries ⟨grouped entries⟩ ↔ entry ∈ entries := by
  rw [Plan.entries, grouped, List.flatMap_map, List.mem_flatMap]
  constructor
  · intro listed
    obtain ⟨target, _, member⟩ := listed
    obtain ⟨application, held, rfl⟩ := List.mem_map.mp member
    exact mem_applicationsFor_iff.mp held
  · intro member
    exact ⟨entry.1, List.mem_eraseDups.mpr (List.mem_map_of_mem member),
      List.mem_map.mpr ⟨entry.2, mem_applicationsFor_iff.mpr member, rfl⟩⟩

/-- Entries may be grouped before they are grouped with those before them. -/
theorem grouped_append_congr
    {held : List (MethodKey × Application)} (same : grouped first = grouped second) :
    grouped (held ++ first) = grouped (held ++ second) := by
  have targets : (first.map Prod.fst).eraseDups = (second.map Prod.fst).eraseDups := by
    rw [← targets_grouped, same, targets_grouped]
  have applications : ∀ target, applicationsFor target first = applicationsFor target second := by
    intro target
    rw [← getD_get?_grouped, same, getD_get?_grouped]
  -- the entries before decide which targets are new, so the grouping may come first
  unfold grouped
  simp only [List.map_append, List.eraseDups_append, List.removeAll, eraseDups_filter, targets,
    applicationsFor_append, applications]

/-- Whether further entries repeat anything does not depend on how they are grouped. -/
theorem nodup_append_regrouped
    {held : List (MethodKey × Application)}
    (distinct : (entries.map Clash.ofEntry).Nodup) :
    ((held ++ Plan.entries ⟨grouped entries⟩).map Clash.ofEntry).Nodup ↔
      ((held ++ entries).map Clash.ofEntry).Nodup := by
  have demanded :
      ∀ clash,
        clash ∈ (Plan.entries ⟨grouped entries⟩).map Clash.ofEntry ↔
          clash ∈ entries.map Clash.ofEntry := by
    intro clash
    simp only [List.mem_map, mem_entries_grouped_iff]
  rw [List.map_append, List.map_append, List.nodup_append, List.nodup_append]
  simp only [demanded, distinct, (regrouped distinct).1]

/-! ## Merging -/

/-- A plan that was made by adding and merging. -/
inductive Made : Plan → Prop where
  | empty : Made empty
  | add {plan next : Plan} {target : MethodKey} {application : Application}
      (made : Made plan) (added : plan.add target application = .ok next) : Made next
  | merge {plan : Plan} (made : Made plan) (other : Plan) : Made (plan.merge other).2

/-- The plans that were made are the groupings of entries none of which repeats another. -/
theorem made_iff {plan : Plan} :
    Made plan ↔ ∃ entries, (entries.map Clash.ofEntry).Nodup ∧ plan = ⟨grouped entries⟩ := by
  constructor
  · intro made
    induction made with
    | empty => exact ⟨[], List.nodup_nil, rfl⟩
    | add made added inductionHypothesis =>
        obtain ⟨entries, distinct, rfl⟩ := inductionHypothesis
        rw [add_grouped] at added
        split at added
        · cases added
        · rename_i new
          exact ⟨_, nodup_snoc distinct new, (Except.ok.inj added).symm⟩
    | merge made other inductionHypothesis =>
        obtain ⟨entries, distinct, rfl⟩ := inductionHypothesis
        exact (additions_addAll distinct other.entries).grouped
  · intro grouping
    obtain ⟨entries, distinct, rfl⟩ := grouping
    induction entries using List.reverseRecOn with
    | nil => exact .empty
    | append_singleton entries entry inductionHypothesis =>
        rw [List.map_append, List.map_singleton, ← List.concat_eq_append,
          List.nodup_concat] at distinct
        exact .add (inductionHypothesis distinct.2) (by rw [add_grouped, if_neg distinct.1])

theorem Made.additions {plan : Plan} (made : Made plan) (other : Plan) :
    Additions plan.entries other.entries (plan.merge other) := by
  obtain ⟨entries, distinct, rfl⟩ := made_iff.mp made
  obtain ⟨distinctAgain, same⟩ := regrouped distinct
  have additions := additions_addAll distinctAgain other.entries
  rwa [same] at additions

/-- Entries make a plan together exactly if the first ones and the others do and these plans
merge. -/
theorem ofEntries_append_eq_ok_iff {plan : Plan} :
    ofEntries (first ++ second) = .ok plan ↔
      ∃ held other, ofEntries first = .ok held ∧ ofEntries second = .ok other ∧
        held.merge other = (.ok (), plan) := by
  constructor
  · intro made
    obtain ⟨distinct, rfl⟩ := ofEntries_eq_ok_iff.mp made
    have distinctFirst : (first.map Clash.ofEntry).Nodup := by
      rw [List.map_append] at distinct
      exact distinct.of_append_left
    have distinctSecond : (second.map Clash.ofEntry).Nodup := by
      rw [List.map_append] at distinct
      exact distinct.of_append_right
    refine ⟨⟨grouped first⟩, ⟨grouped second⟩, ofEntries_eq_ok_iff.mpr ⟨distinctFirst, rfl⟩,
      ofEntries_eq_ok_iff.mpr ⟨distinctSecond, rfl⟩, ?_⟩
    rw [merge, addAll_grouped_eq_ok_iff distinctFirst, nodup_append_regrouped distinctSecond]
    exact ⟨distinct, by rw [grouped_append_congr (regrouped distinctSecond).2]⟩
  · intro merged
    obtain ⟨held, other, madeHeld, madeOther, merged⟩ := merged
    obtain ⟨distinctFirst, rfl⟩ := ofEntries_eq_ok_iff.mp madeHeld
    obtain ⟨distinctSecond, rfl⟩ := ofEntries_eq_ok_iff.mp madeOther
    rw [merge, addAll_grouped_eq_ok_iff distinctFirst, nodup_append_regrouped distinctSecond,
      grouped_append_congr (regrouped distinctSecond).2] at merged
    exact ofEntries_eq_ok_iff.mpr merged

/-- Plans are groupings of entries, and merging plans is putting the entries together. A merge
that fails leaves the entries that stand before the first clash. -/
theorem groupings :
    (∀ entries, Grouping entries (Manifest.toPlan ⟨entries⟩)) ∧
      (∀ first second plan,
        Manifest.toPlan ⟨first ++ second⟩ = .ok plan ↔
          ∃ held other, Manifest.toPlan ⟨first⟩ = .ok held ∧
            Manifest.toPlan ⟨second⟩ = .ok other ∧ held.merge other = (.ok (), plan)) ∧
      ∀ plan other, Made plan → Additions plan.entries other.entries (plan.merge other) :=
  ⟨grouping_ofEntries, fun _ _ _ => ofEntries_append_eq_ok_iff,
    fun _ other made => made.additions other⟩

/-- The plan that is merged has the targets in the other order, and two of its applications
come over before the clash. -/
theorem groupings_clash :
    let update : MethodKey := ⟨"Game", "Update"⟩
    let draw : MethodKey := ⟨"Game", "Draw"⟩
    let plan : Plan := ⟨[(update, [⟨"a", .null⟩]), (draw, [⟨"a", .null⟩])]⟩
    let further : List (MethodKey × Application) :=
      [(draw, ⟨"b", .null⟩), (update, ⟨"a", .null⟩), (draw, ⟨"c", .null⟩)]
    let other : Plan := ⟨[(draw, [⟨"b", .null⟩, ⟨"c", .null⟩]), (update, [⟨"a", .null⟩])]⟩
    Made plan ∧ Manifest.toPlan ⟨further⟩ = .ok other ∧ Grouping further (.ok other) ∧
      Additions plan.entries other.entries (plan.merge other) ∧
      plan.merge other =
        (.error ⟨update, "a"⟩,
          ⟨[(update, [⟨"a", .null⟩]),
            (draw, [⟨"a", .null⟩, ⟨"b", .null⟩, ⟨"c", .null⟩])]⟩) := by
  intro update draw plan further other
  have made : Made plan := by
    have first : empty.add update ⟨"a", .null⟩ = .ok ⟨[(update, [⟨"a", .null⟩])]⟩ := by rfl
    have second : add ⟨[(update, [⟨"a", .null⟩])]⟩ draw ⟨"a", .null⟩ = .ok plan := by rfl
    exact .add (.add .empty first) second
  obtain ⟨grouping, _, merging⟩ := groupings
  exact ⟨made, by rfl, grouping further, merging plan other made, by rfl⟩

end Plan

end BytecodePatch
