import BytecodePatch.Plan.Basic
import Mathlib.Data.List.Nodup

/-!
# Plans from their entries

A plan gives its entries target after target. If its targets differ, each of them has an
application and none has a rule twice, adding the entries one after another to the empty plan
makes the plan again.
-/

namespace BytecodePatch

namespace Plan

/-- The targets differ, each has an application, and none has a rule twice. -/
structure Grouped (plan : Plan) : Prop where
  distinct : (plan.targets.map Prod.fst).Nodup
  applied : ∀ target ∈ plan.targets, target.2 ≠ []
  rules : ∀ target ∈ plan.targets, (target.2.map Application.rule).Nodup

/-! ## Targets that are not there yet -/

variable {target : MethodKey} {targets : List (MethodKey × List Application)}

theorem addTo_append
    (application : Application) (rest : List (MethodKey × List Application))
    (fresh : target ∉ targets.map Prod.fst) :
    addTo target application (targets ++ rest) =
      targets ++ addTo target application rest := by
  induction targets with
  | nil => rfl
  | cons head targets inductionHypothesis =>
      obtain ⟨apart, freshRest⟩ := not_or.mp (mt List.mem_cons.mpr fresh)
      rw [List.cons_append, addTo, if_neg (Ne.symm apart), inductionHypothesis freshRest]
      rfl

theorem get?_append
    (rest : List (MethodKey × List Application))
    (fresh : target ∉ targets.map Prod.fst) :
    get? ⟨targets ++ rest⟩ target = get? ⟨rest⟩ target := by
  have absent : targets.lookup target = none := by
    apply List.lookup_eq_none_iff.mpr
    intro head member
    have apart : target ≠ head.1 := fun same => fresh (same ▸ List.mem_map_of_mem member)
    simpa using apart
  rw [get?, List.lookup_append, absent, Option.none_or]
  rfl

theorem add_new (application : Application) (fresh : target ∉ targets.map Prod.fst) :
    add ⟨targets⟩ target application = .ok ⟨targets ++ [(target, [application])]⟩ := by
  have absent : has ⟨targets⟩ target application.rule = false := by
    have held := get?_append [] fresh
    rw [List.append_nil] at held
    rw [has, held]
    rfl
  have placed := addTo_append application [] fresh
  rw [List.append_nil] at placed
  rw [add, absent, if_neg Bool.false_ne_true, placed]
  rfl

theorem add_last
    {application : Application} {applications : List Application}
    (fresh : target ∉ targets.map Prod.fst)
    (newRule : application.rule ∉ applications.map Application.rule) :
    add ⟨targets ++ [(target, applications)]⟩ target application =
      .ok ⟨targets ++ [(target, applications ++ [application])]⟩ := by
  have absent :
      has ⟨targets ++ [(target, applications)]⟩ target application.rule = false := by
    have held : get? ⟨[(target, applications)]⟩ target = some applications := by
      rw [get?, List.lookup_cons_self]
    rw [has, get?_append _ fresh, held, Option.getD_some, List.any_eq_false]
    intro other member
    have apart : other.rule ≠ application.rule :=
      fun same => newRule (same ▸ List.mem_map_of_mem member)
    simpa using apart
  rw [add, absent, if_neg Bool.false_ne_true, addTo_append application _ fresh, addTo,
    if_pos rfl]

/-! ## Entries one after another -/

theorem addAll_append
    {plan next : Plan} {entries : List (MethodKey × Application)}
    (added : plan.addAll entries = (.ok (), next))
    (later : List (MethodKey × Application)) :
    plan.addAll (entries ++ later) = next.addAll later := by
  induction entries generalizing plan with
  | nil =>
      obtain ⟨-, rfl⟩ := Prod.mk.inj added
      rfl
  | cons entry entries inductionHypothesis =>
      obtain ⟨target, application⟩ := entry
      rw [addAll] at added
      rw [List.cons_append, addAll]
      split at added
      · exact inductionHypothesis added
      · cases added

/-- The applications of one target are added after those which it has. -/
theorem addAll_last
    (fresh : target ∉ targets.map Prod.fst) :
    ∀ {applications held : List Application},
      ((held ++ applications).map Application.rule).Nodup →
        addAll ⟨targets ++ [(target, held)]⟩
            (applications.map fun application => (target, application)) =
          (.ok (), ⟨targets ++ [(target, held ++ applications)]⟩)
  | [], held, _ => by
      rw [List.append_nil]
      rfl
  | application :: applications, held, distinct => by
      have newRule : application.rule ∉ held.map Application.rule := by
        rw [List.map_append, List.map_cons] at distinct
        have apart := (List.nodup_cons.mp (List.nodup_middle.mp distinct)).1
        exact fun member => apart (List.mem_append_left _ member)
      rw [List.append_cons] at distinct
      rw [List.map_cons, addAll, add_last fresh newRule]
      have rest := addAll_last fresh distinct
      rw [List.append_cons held application applications]
      exact rest

/-- The entries of further targets make these targets. -/
theorem addAll_targets :
    ∀ {rest before : List (MethodKey × List Application)},
      Grouped ⟨before ++ rest⟩ →
        addAll ⟨before⟩ (entries ⟨rest⟩) = (.ok (), ⟨before ++ rest⟩)
  | [], before, _ => by
      rw [List.append_nil]
      rfl
  | (target, []) :: rest, before, grouped =>
      absurd rfl (grouped.applied (target, []) (by simp))
  | (target, application :: applications) :: rest, before, grouped => by
      have fresh : target ∉ before.map Prod.fst := by
        have distinct := grouped.distinct
        rw [List.map_append, List.map_cons] at distinct
        have apart := (List.nodup_cons.mp (List.nodup_middle.mp distinct)).1
        exact fun member => apart (List.mem_append_left _ member)
      have distinctRules :=
        grouped.rules (target, application :: applications) (by simp)
      have first :
          addAll ⟨before⟩ ((application :: applications).map fun added => (target, added)) =
            (.ok (), ⟨before ++ [(target, application :: applications)]⟩) := by
        rw [List.map_cons, addAll, add_new application fresh]
        exact addAll_last fresh distinctRules
      have others : Grouped ⟨before ++ [(target, application :: applications)] ++ rest⟩ := by
        rwa [List.append_cons] at grouped
      calc
        addAll ⟨before⟩ (entries ⟨(target, application :: applications) :: rest⟩) =
            addAll ⟨before ++ [(target, application :: applications)]⟩ (entries ⟨rest⟩) :=
          addAll_append first _
        _ = (.ok (), ⟨before ++ [(target, application :: applications)] ++ rest⟩) :=
          addAll_targets others
        _ = (.ok (), ⟨before ++ (target, application :: applications) :: rest⟩) := by
          rw [List.append_assoc, List.singleton_append]

/-- A plan comes back from its entries. -/
theorem ofEntries_entries {plan : Plan} (grouped : plan.Grouped) :
    ofEntries plan.entries = .ok plan := by
  have whole : Grouped ⟨[] ++ plan.targets⟩ := grouped
  have added : empty.addAll plan.entries = (.ok (), plan) := addAll_targets whole
  rw [ofEntries, added]

end Plan

end BytecodePatch
