import BytecodePatch.Proofs.Chain.Linked

/-!
# The entries of a chain as a list

A chain is well linked when its links put its values into some order. The entries of a well
linked chain are a list without repeated slots that holds exactly the slots with values, and
each operation acts on it as a plain list operation: linking a value in before an entry puts
it there, taking an entry out drops it, and changing values changes them in place.
-/

namespace BytecodePatch.Chain

variable {α : Type}

/-- The links of a chain put its values into an order. -/
def WellLinked (chain : Chain α) : Prop :=
  ∃ order, chain.Linked order

theorem wellLinked_empty : (empty : Chain α).WellLinked :=
  ⟨[], linked_empty⟩

private theorem entriesFrom_mapValues (chain : Chain α) (change : α → α) (bound : Nat) :
    ∀ slot : Option Nat,
      (chain.mapValues change).entriesFrom bound slot =
        (chain.entriesFrom bound slot).map fun entry => (entry.1, change entry.2) := by
  induction bound with
  | zero => exact fun _ => rfl
  | succ bound inductionHypothesis =>
      intro slot
      cases slot with
      | none => rfl
      | some slot =>
          simp only [entriesFrom, value?_mapValues, next?_mapValues, inductionHypothesis]
          cases chain.value? slot <;> rfl

/-- Changing values changes the entries in place, however the chain is linked. -/
theorem entries_mapValues (chain : Chain α) (change : α → α) :
    (chain.mapValues change).entries =
      chain.entries.map fun entry => (entry.1, change entry.2) := by
  rw [entries, issued_mapValues]
  exact entriesFrom_mapValues chain change _ _

/-- A chain that is linked in the order of a list of entries, and holds their values, has
exactly these entries. -/
private theorem entries_eq_of_linked
    {chain : Chain α} {entries : List (Nat × α)}
    (linked : chain.Linked (entries.map Prod.fst))
    (held : ∀ entry ∈ entries, chain.value? entry.1 = some entry.2) :
    chain.entries = entries := by
  rw [linked.entries_eq, List.filterMap_map]
  calc
    entries.filterMap
        ((fun slot => (chain.value? slot).map (Prod.mk slot)) ∘ Prod.fst) =
        entries.filterMap some := by
      apply List.filterMap_congr
      intro entry member
      simp [held entry member]
    _ = entries := List.filterMap_some

namespace WellLinked

variable {chain : Chain α} {left right : List (Nat × α)} {slot : Nat} {value : α}

/-- A well linked chain is linked in the order of its entries. -/
theorem linked (wellLinked : chain.WellLinked) :
    chain.Linked (chain.entries.map Prod.fst) := by
  obtain ⟨order, linked⟩ := wellLinked
  rw [linked.slots_eq]
  exact linked

theorem nodup_slots (wellLinked : chain.WellLinked) : (chain.entries.map Prod.fst).Nodup :=
  wellLinked.linked.nodup

theorem mem_entries_iff (wellLinked : chain.WellLinked) :
    (slot, value) ∈ chain.entries ↔ chain.value? slot = some value :=
  wellLinked.linked.mem_entries_iff

theorem length_eq (wellLinked : chain.WellLinked) : chain.length = chain.entries.length := by
  simpa using wellLinked.linked.length

theorem first_eq (wellLinked : chain.WellLinked) :
    chain.first = chain.entries.head?.map Prod.fst := by
  simpa using wellLinked.linked.first

theorem last_eq (wellLinked : chain.WellLinked) :
    chain.last = chain.entries.getLast?.map Prod.fst := by
  simpa using wellLinked.linked.last

theorem linked_of_cut
    (wellLinked : chain.WellLinked)
    (cut : chain.entries = left ++ right) :
    chain.Linked (left.map Prod.fst ++ right.map Prod.fst) := by
  rw [← List.map_append, ← cut]
  exact wellLinked.linked

theorem next?_eq
    (wellLinked : chain.WellLinked)
    (cut : chain.entries = left ++ (slot, value) :: right) :
    chain.next? slot = right.head?.map Prod.fst := by
  simpa using (wellLinked.linked_of_cut cut).next?_eq rfl

theorem previous?_eq
    (wellLinked : chain.WellLinked)
    (cut : chain.entries = left ++ (slot, value) :: right) :
    chain.previous? slot = left.getLast?.map Prod.fst := by
  simpa using (wellLinked.linked_of_cut cut).previous?_eq rfl

/-! ## Operations -/

theorem link
    (wellLinked : chain.WellLinked) (new : α)
    (cut : chain.entries = left ++ right) :
    (chain.link new (right.head?.map Prod.fst)).WellLinked := by
  have linked := (wellLinked.linked_of_cut cut).link new
  rw [List.head?_map] at linked
  exact ⟨_, linked⟩

theorem entries_link
    (wellLinked : chain.WellLinked) (new : α)
    (cut : chain.entries = left ++ right) :
    (chain.link new (right.head?.map Prod.fst)).entries =
      left ++ (chain.issued, new) :: right := by
  have linked := (wellLinked.linked_of_cut cut).link new
  apply entries_eq_of_linked
  · simpa using linked
  · rintro ⟨slot, value⟩ member
    rw [value?_link]
    split
    · rename_i isNew
      subst isNew
      have fresh := (wellLinked.linked_of_cut cut).issued_not_mem
      have notOld : ∀ {held}, (chain.issued, held) ∉ left ++ right := by
        intro held old
        apply fresh
        rw [← List.map_append]
        exact List.mem_map.mpr ⟨_, old, rfl⟩
      simp only [List.mem_append, List.mem_cons, Prod.mk.injEq] at member
      rcases member with inLeft | ⟨_, rfl⟩ | inRight
      · exact absurd (List.mem_append_left right inLeft) notOld
      · rfl
      · exact absurd (List.mem_append_right left inRight) notOld
    · rename_i old
      apply wellLinked.mem_entries_iff.mp
      rw [cut]
      simp only [List.mem_append, List.mem_cons, Prod.mk.injEq] at member ⊢
      tauto

/-- A value can be taken out of every slot that is among the entries. -/
theorem exists_unlink
    (wellLinked : chain.WellLinked)
    (cut : chain.entries = left ++ (slot, value) :: right) :
    ∃ result,
      chain.unlink? slot = some (value, result) ∧
        result.WellLinked ∧ result.entries = left ++ right := by
  have linked := wellLinked.linked_of_cut cut
  rw [List.map_cons] at linked
  obtain ⟨taken, result, unlinked⟩ := linked.exists_unlink
  have resultLinked := linked.unlink unlinked
  have takenEq : taken = value := by
    obtain ⟨previous, next, node, _⟩ := unlink?_eq_some_iff.mp unlinked
    have held := wellLinked.mem_entries_iff.mp
      (cut ▸ List.mem_append_right left (List.mem_cons_self))
    rw [value?_of_node node] at held
    exact Option.some.inj held
  subst takenEq
  refine ⟨result, unlinked, ⟨_, resultLinked⟩, entries_eq_of_linked ?_ ?_⟩
  · simpa using resultLinked
  · rintro ⟨other, held⟩ member
    have notTaken : slot ≠ other := by
      rintro rfl
      have nodup := linked.nodup
      apply (List.nodup_cons.mp (List.nodup_middle.mp nodup)).1
      rw [← List.map_append]
      exact List.mem_map.mpr ⟨_, member, rfl⟩
    rw [value?_unlink unlinked, if_neg notTaken]
    apply wellLinked.mem_entries_iff.mp
    rw [cut]
    simp only [List.mem_append, List.mem_cons] at member ⊢
    tauto

theorem modify (wellLinked : chain.WellLinked) (slot : Nat) (change : α → α) :
    (chain.modify slot change).WellLinked := by
  obtain ⟨order, linked⟩ := wellLinked
  exact ⟨order, linked.modify slot change⟩

theorem entries_modify (wellLinked : chain.WellLinked) (slot : Nat) (change : α → α) :
    (chain.modify slot change).entries =
      chain.entries.map fun entry =>
        if slot = entry.1 then (entry.1, change entry.2) else entry := by
  apply entries_eq_of_linked
  · have sameSlots :
        (chain.entries.map fun entry =>
          if slot = entry.1 then (entry.1, change entry.2) else entry).map Prod.fst =
          chain.entries.map Prod.fst := by
      rw [List.map_map]
      apply List.map_congr_left
      intro entry _
      simp only [Function.comp_apply]
      split <;> rfl
    rw [sameSlots]
    exact wellLinked.linked.modify slot change
  · intro entry member
    obtain ⟨⟨old, held⟩, oldMember, rfl⟩ := List.mem_map.mp member
    have heldEq := wellLinked.mem_entries_iff.mp oldMember
    rw [value?_modify]
    split
    · simp only at *
      subst slot
      simp [heldEq]
    · rename_i other
      simp_all

theorem mapValues (wellLinked : chain.WellLinked) (change : α → α) :
    (chain.mapValues change).WellLinked := by
  obtain ⟨order, linked⟩ := wellLinked
  exact ⟨order, linked.mapValues change⟩

end WellLinked

end BytecodePatch.Chain
