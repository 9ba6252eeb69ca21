import BytecodePatch.Proofs.Chain.Value
import Mathlib.Data.List.Nodup
import Mathlib.Data.List.Perm.Subperm

/-!
# Linked chains

A chain is linked in an order of slots when its links go through exactly these slots, in both
directions, and no other slot has a value. The order is then what the walk along the links
reads. The empty chain is linked; linking a value in, taking one out and changing values keep
a chain linked and act on its order as on a list.
-/

namespace BytecodePatch.Chain

variable {α : Type}

/-- The links of a chain put its values into the given order of slots. -/
structure Linked (chain : Chain α) (order : List Nat) : Prop where
  first : chain.first = order.head?
  last : chain.last = order.getLast?
  length : chain.length = order.length
  nodup : order.Nodup
  node : ∀ before slot after, order = before ++ slot :: after →
    ∃ value, chain.nodes[slot]? = some ⟨some value, before.getLast?, after.head?⟩
  complete : ∀ {slot}, (chain.value? slot).isSome → slot ∈ order

/-- A cut of two lists around an element of the two together lies in one of them. -/
private theorem append_eq_middle
    {left right before after : List Nat} {slot : Nat}
    (cut : left ++ right = before ++ slot :: after) :
    (∃ rest, left = before ++ slot :: rest ∧ after = rest ++ right) ∨
      ∃ rest, right = rest ++ slot :: after ∧ before = left ++ rest := by
  rcases List.append_eq_append_iff.mp cut with
    ⟨rest, beforeEq, rightEq⟩ | ⟨rest, leftEq, middleEq⟩
  · exact Or.inr ⟨rest, rightEq, beforeEq⟩
  · rcases List.cons_eq_append_iff.mp middleEq with
      ⟨rfl, rightEq⟩ | ⟨tail, rfl, afterEq⟩
    · exact Or.inr ⟨[], rightEq, by simpa using leftEq.symm⟩
    · exact Or.inl ⟨tail, leftEq, afterEq⟩

theorem linked_empty : (empty : Chain α).Linked [] where
  first := rfl
  last := rfl
  length := rfl
  nodup := List.nodup_nil
  node := by
    intro before slot after cut
    simp at cut
  complete := by
    intro slot held
    simp [value?_eq, empty] at held

namespace Linked

variable {chain : Chain α} {order before after : List Nat} {slot : Nat}

/-! ## Reading the order -/

theorem value?_isSome
    (linked : chain.Linked order)
    (cut : order = before ++ slot :: after) :
    ∃ value, chain.value? slot = some value := by
  obtain ⟨value, node⟩ := linked.node _ _ _ cut
  exact ⟨value, value?_of_node node⟩

theorem mem_iff (linked : chain.Linked order) :
    slot ∈ order ↔ (chain.value? slot).isSome := by
  constructor
  · intro member
    obtain ⟨before, after, cut⟩ := List.append_of_mem member
    obtain ⟨value, held⟩ := linked.value?_isSome cut
    rw [held]
    rfl
  · exact linked.complete

theorem lt_issued (linked : chain.Linked order) (member : slot ∈ order) :
    slot < chain.issued := by
  obtain ⟨value, held⟩ := Option.isSome_iff_exists.mp (linked.mem_iff.mp member)
  exact lt_issued_of_value? held

theorem issued_not_mem (linked : chain.Linked order) : chain.issued ∉ order :=
  fun member => Nat.lt_irrefl _ (linked.lt_issued member)

theorem length_le_issued (linked : chain.Linked order) : order.length ≤ chain.issued := by
  have contained : order ⊆ List.range chain.issued := by
    intro slot member
    exact List.mem_range.mpr (linked.lt_issued member)
  simpa using (List.subperm_of_subset linked.nodup contained).length_le

theorem next?_eq
    (linked : chain.Linked order)
    (cut : order = before ++ slot :: after) :
    chain.next? slot = after.head? := by
  obtain ⟨value, node⟩ := linked.node _ _ _ cut
  exact next?_of_node node

theorem previous?_eq
    (linked : chain.Linked order)
    (cut : order = before ++ slot :: after) :
    chain.previous? slot = before.getLast? := by
  obtain ⟨value, node⟩ := linked.node _ _ _ cut
  exact previous?_of_node node

/-- The walk from a slot on reads the rest of the order, given enough links to go along. -/
private theorem entriesFrom_eq
    (linked : chain.Linked order) :
    ∀ (after before : List Nat) (bound : Nat),
      order = before ++ after →
        after.length ≤ bound →
          chain.entriesFrom bound after.head? =
            after.filterMap fun slot => (chain.value? slot).map (Prod.mk slot)
  | [], _, bound, _, _ => by
      cases bound <;> rfl
  | slot :: rest, _, 0, _, enough => by
      simp at enough
  | slot :: rest, before, bound + 1, cut, enough => by
      obtain ⟨value, held⟩ := linked.value?_isSome cut
      have restCut : order = (before ++ [slot]) ++ rest := by
        simpa using cut
      have restEnough : rest.length ≤ bound := by
        simpa using enough
      have restRead := linked.entriesFrom_eq rest (before ++ [slot]) bound restCut restEnough
      simp only [List.head?_cons, entriesFrom, held, linked.next?_eq cut, restRead,
        List.filterMap_cons, Option.map_some]

/-- The entries of a linked chain are its values in order. -/
theorem entries_eq (linked : chain.Linked order) :
    chain.entries = order.filterMap fun slot => (chain.value? slot).map (Prod.mk slot) := by
  rw [entries, linked.first]
  exact linked.entriesFrom_eq order [] chain.issued rfl linked.length_le_issued

/-- The order of a linked chain is that of the slots of its entries. -/
theorem slots_eq (linked : chain.Linked order) : chain.entries.map Prod.fst = order := by
  rw [linked.entries_eq, List.map_filterMap]
  calc
    order.filterMap (fun slot => ((chain.value? slot).map (Prod.mk slot)).map Prod.fst) =
        order.filterMap some := by
      apply List.filterMap_congr
      intro slot member
      obtain ⟨value, held⟩ := Option.isSome_iff_exists.mp (linked.mem_iff.mp member)
      rw [held]
      rfl
    _ = order := List.filterMap_some

theorem mem_entries_iff (linked : chain.Linked order) {value : α} :
    (slot, value) ∈ chain.entries ↔ chain.value? slot = some value := by
  rw [linked.entries_eq, List.mem_filterMap]
  constructor
  · rintro ⟨other, _, found⟩
    obtain ⟨held, heldEq, pairEq⟩ := Option.map_eq_some_iff.mp found
    cases pairEq
    exact heldEq
  · intro held
    refine ⟨slot, linked.complete ?_, ?_⟩
    · rw [held]
      rfl
    · rw [held]
      rfl

/-- The order of a linked chain is the only one that its links put its values into. -/
theorem unique {other : List Nat} (linked : chain.Linked order)
    (otherLinked : chain.Linked other) : order = other := by
  rw [← linked.slots_eq, otherLinked.slots_eq]

/-! ## Linking a value in -/

theorem beforeNext_eq (linked : chain.Linked (before ++ after)) :
    chain.beforeNext after.head? = before.getLast? := by
  cases after with
  | nil => simpa [beforeNext] using linked.last
  | cons slot rest =>
      obtain ⟨value, node⟩ := linked.node before slot rest rfl
      rw [List.head?_cons, beforeNext, node]
      rfl

/-- Joining the two parts of an order changes, in the left part, only what comes after its
last slot. -/
private theorem joined_left
    {left rest after : List Nat} {slot : Nat} {value : Option α}
    (nodup : ((left ++ slot :: rest) ++ after).Nodup) (next previous old : Option Nat) :
    (⟨value, if after.head? = some slot then previous else left.getLast?,
        if (left ++ slot :: rest).getLast? = some slot then next else rest.head?.or old⟩ :
      Node α) =
      ⟨value, left.getLast?, rest.head?.or next⟩ := by
  have notHead : after.head? ≠ some slot := by
    intro atHead
    have apart := (List.nodup_append.mp nodup).2.2
    exact apart slot (by simp) slot (List.mem_of_mem_head? atHead) rfl
  rw [if_neg notHead]
  cases rest with
  | nil => simp
  | cons head tail =>
      have notLast : (left ++ slot :: head :: tail).getLast? ≠ some slot := by
        intro atLast
        have member : slot ∈ head :: tail := by
          apply List.mem_of_getLast?
          simpa [List.getLast?_append] using atLast
        have leftNodup := (List.nodup_append.mp nodup).1
        exact (List.nodup_cons.mp (List.nodup_append.mp leftNodup).2.1).1 member
      rw [if_neg notLast]
      rfl

/-- Joining the two parts of an order changes, in the right part, only what comes before its
first slot. -/
private theorem joined_right
    {before rest right : List Nat} {slot : Nat} {value : Option α}
    (nodup : (before ++ (rest ++ slot :: right)).Nodup) (next previous old : Option Nat) :
    (⟨value,
        if (rest ++ slot :: right).head? = some slot then previous else rest.getLast?.or old,
        if before.getLast? = some slot then next else right.head?⟩ :
      Node α) =
      ⟨value, rest.getLast?.or previous, right.head?⟩ := by
  have notLast : before.getLast? ≠ some slot := by
    intro atLast
    have apart := (List.nodup_append.mp nodup).2.2
    exact apart slot (List.mem_of_getLast? atLast) slot (by simp) rfl
  rw [if_neg notLast]
  cases rest with
  | nil => simp
  | cons head tail =>
      have notHead : (head :: tail ++ slot :: right).head? ≠ some slot := by
        intro atHead
        obtain rfl : head = slot := by simpa using atHead
        have rightNodup := (List.nodup_append.mp nodup).2.1
        exact (List.nodup_cons.mp rightNodup).1 (by simp)
      rw [if_neg notHead]
      simp [List.getLast?_cons]

private theorem nodes_link (value : α) (linked : chain.Linked (before ++ after)) (index : Nat) :
    (chain.link value after.head?).nodes[index]? =
      (if index = chain.issued then some ⟨some value, before.getLast?, after.head?⟩
        else chain.nodes[index]?).map fun node =>
          ⟨node.value,
            if after.head? = some index then some chain.issued else node.previous,
            if before.getLast? = some index then some chain.issued else node.next⟩ := by
  rw [Chain.link, nodes_joined, linked.beforeNext_eq, Array.getElem?_push, issued]

/-- A value that is linked in before a slot stands before it in the order. -/
theorem link (value : α) (linked : chain.Linked (before ++ after)) :
    (chain.link value after.head?).Linked (before ++ chain.issued :: after) where
  first := by
    rw [Chain.link, first_setPrevious, first_setNext, linked.beforeNext_eq]
    cases before with
    | nil => rfl
    | cons head rest => simpa using linked.first
  last := by
    rw [Chain.link, last_setPrevious, last_setNext]
    cases after with
    | nil => simp
    | cons head rest => simpa [List.getLast?_append] using linked.last
  length := by
    have counted := linked.length
    simp only [Chain.link, length_setPrevious, length_setNext, List.length_append,
      List.length_cons] at counted ⊢
    omega
  nodup := List.nodup_middle.mpr (List.nodup_cons.mpr ⟨linked.issued_not_mem, linked.nodup⟩)
  node := by
    intro left slot right cut
    have fresh := linked.issued_not_mem
    rw [nodes_link value linked]
    rcases append_eq_middle cut with ⟨rest, rfl, rfl⟩ | ⟨rest, middleEq, rfl⟩
    · -- the slot stands before the new one
      obtain ⟨held, node⟩ :=
        linked.node left slot (rest ++ after) (by simp)
      have notNew : slot ≠ chain.issued := by
        rintro rfl
        simp at fresh
      refine ⟨held, ?_⟩
      rw [if_neg notNew, node, Option.map_some]
      simp only [List.head?_append]
      rw [joined_left linked.nodup]
      rfl
    · rcases List.cons_eq_append_iff.mp middleEq with
        ⟨rfl, newEq⟩ | ⟨between, rfl, rfl⟩
      · -- the slot is the new one
        obtain ⟨rfl, rfl⟩ := List.cons.inj newEq
        have notHead : right.head? ≠ some chain.issued := by
          intro atHead
          exact fresh (List.mem_append_right before (List.mem_of_mem_head? atHead))
        have notLast : before.getLast? ≠ some chain.issued := by
          intro atLast
          exact fresh (List.mem_append_left right (List.mem_of_getLast? atLast))
        refine ⟨value, ?_⟩
        simp [notHead, notLast]
      · -- the slot stands after the new one
        obtain ⟨held, node⟩ :=
          linked.node (before ++ between) slot right (by simp)
        have notNew : slot ≠ chain.issued := by
          rintro rfl
          simp at fresh
        refine ⟨held, ?_⟩
        rw [if_neg notNew, node, Option.map_some]
        simp only [List.getLast?_append]
        rw [joined_right linked.nodup]
        simp [List.getLast?_cons]
  complete := by
    intro slot held
    rw [value?_link] at held
    split at held
    · rename_i new
      simp [new]
    · have member := linked.complete held
      simp only [List.mem_append, List.mem_cons] at member ⊢
      tauto

/-! ## Taking a value out -/

theorem exists_unlink
    (linked : chain.Linked (before ++ slot :: after)) :
    ∃ value result, chain.unlink? slot = some (value, result) := by
  obtain ⟨value, node⟩ := linked.node before slot after rfl
  exact ⟨value, _, unlink?_eq_some_iff.mpr ⟨_, _, node, rfl⟩⟩

private theorem unlink_eq
    {value : α} {result : Chain α}
    (linked : chain.Linked (before ++ slot :: after))
    (taken : chain.unlink? slot = some (value, result)) :
    result =
      (Chain.setNext
        { chain with
          nodes := chain.nodes.modify slot fun _ => ⟨none, none, none⟩
          length := chain.length - 1 }
        before.getLast? after.head?).setPrevious after.head? before.getLast? := by
  obtain ⟨held, node⟩ := linked.node before slot after rfl
  obtain ⟨previous, next, found, resultEq⟩ := unlink?_eq_some_iff.mp taken
  rw [node] at found
  cases found
  exact resultEq

/-- Taking a value out takes its slot out of the order. -/
theorem unlink
    {value : α} {result : Chain α}
    (linked : chain.Linked (before ++ slot :: after))
    (taken : chain.unlink? slot = some (value, result)) :
    result.Linked (before ++ after) where
  first := by
    rw [linked.unlink_eq taken, first_setPrevious, first_setNext]
    cases before with
    | nil => rfl
    | cons head rest => simpa using linked.first
  last := by
    rw [linked.unlink_eq taken, last_setPrevious, last_setNext]
    cases after with
    | nil => simp
    | cons head rest => simpa [List.getLast?_append] using linked.last
  length := by
    have counted := linked.length
    rw [linked.unlink_eq taken]
    simp only [length_setPrevious, length_setNext, List.length_append,
      List.length_cons] at counted ⊢
    omega
  nodup := (List.nodup_cons.mp (List.nodup_middle.mp linked.nodup)).2
  node := by
    intro left other right cut
    have whole := List.nodup_cons.mp (List.nodup_middle.mp linked.nodup)
    have notTaken : slot ≠ other := by
      rintro rfl
      apply whole.1
      rw [cut]
      simp
    rw [linked.unlink_eq taken, nodes_joined, Array.getElem?_modify, if_neg notTaken]
    rcases append_eq_middle cut with ⟨rest, rfl, rfl⟩ | ⟨rest, rfl, rfl⟩
    · obtain ⟨held, node⟩ :=
        linked.node left other (rest ++ slot :: after) (by simp)
      refine ⟨held, ?_⟩
      rw [node, Option.map_some]
      simp only [List.head?_append]
      rw [joined_left whole.2]
    · obtain ⟨held, node⟩ :=
        linked.node (before ++ slot :: rest) other right (by simp)
      refine ⟨held, ?_⟩
      rw [node, Option.map_some]
      have lastEq :
          (before ++ slot :: rest).getLast? = rest.getLast?.or (some slot) := by
        simp [List.getLast?_append, List.getLast?_cons]
      rw [lastEq, joined_right whole.2, List.getLast?_append]
  complete := by
    intro other held
    rw [value?_unlink taken] at held
    split at held
    · simp at held
    · rename_i notTaken
      have member := linked.complete held
      simp only [List.mem_append, List.mem_cons] at member ⊢
      rcases member with inBefore | atSlot | inAfter
      · exact Or.inl inBefore
      · exact absurd atSlot.symm notTaken
      · exact Or.inr inAfter

/-! ## Changing values -/

/-- A chain whose values were changed in place is linked as before. -/
private theorem of_mapped
    {result : Chain α} (linked : chain.Linked order)
    (change : Nat → α → α)
    (first : result.first = chain.first) (last : result.last = chain.last)
    (length : result.length = chain.length)
    (nodes : ∀ index,
      result.nodes[index]? = chain.nodes[index]?.map (Node.mapValue (change index))) :
    result.Linked order where
  first := first.trans linked.first
  last := last.trans linked.last
  length := length.trans linked.length
  nodup := linked.nodup
  node := by
    intro before slot after cut
    obtain ⟨value, node⟩ := linked.node _ _ _ cut
    refine ⟨change slot value, ?_⟩
    rw [nodes, node]
    rfl
  complete := by
    intro slot held
    apply linked.complete
    rw [value?_eq, nodes] at held
    rw [value?_eq]
    cases found : chain.nodes[slot]? with
    | none => simp [found] at held
    | some node =>
        rw [found] at held
        simpa [Node.mapValue] using held

theorem modify (linked : chain.Linked order) (slot : Nat) (change : α → α) :
    (chain.modify slot change).Linked order := by
  refine linked.of_mapped (fun index => if slot = index then change else id) rfl rfl rfl ?_
  intro index
  rw [Chain.modify, Array.getElem?_modify]
  split
  · rfl
  · cases chain.nodes[index]? with
    | none => rfl
    | some node => simp [Node.mapValue]

theorem mapValues (linked : chain.Linked order) (change : α → α) :
    (chain.mapValues change).Linked order := by
  refine linked.of_mapped (fun _ => change) rfl rfl rfl ?_
  intro index
  rw [Chain.mapValues, Array.getElem?_map]

end Linked

end BytecodePatch.Chain
