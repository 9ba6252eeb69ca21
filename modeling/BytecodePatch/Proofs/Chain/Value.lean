import BytecodePatch.Code.Chain

/-!
# Values of a chain

What each operation on a chain does to the slots, whatever the links look like. A link is set
in one place and touches no value; linking a value in fills the next slot alone; taking one
out empties its slot alone.
-/

namespace BytecodePatch.Chain

variable {α : Type}

theorem value?_eq (chain : Chain α) (slot : Nat) :
    chain.value? slot = chain.nodes[slot]?.bind Node.value := by
  unfold value? node?
  cases chain.nodes[slot]? with
  | none => rfl
  | some node =>
      obtain ⟨value, previous, next⟩ := node
      cases value <;> rfl

private theorem node?_of_node
    {chain : Chain α} {slot : Nat} {value : α} {previous next : Option Nat}
    (node : chain.nodes[slot]? = some ⟨some value, previous, next⟩) :
    chain.node? slot = some ⟨some value, previous, next⟩ := by
  unfold node?
  rw [node]
  rfl

theorem next?_of_node
    {chain : Chain α} {slot : Nat} {value : α} {previous next : Option Nat}
    (node : chain.nodes[slot]? = some ⟨some value, previous, next⟩) :
    chain.next? slot = next := by
  rw [next?, node?_of_node node]
  rfl

theorem previous?_of_node
    {chain : Chain α} {slot : Nat} {value : α} {previous next : Option Nat}
    (node : chain.nodes[slot]? = some ⟨some value, previous, next⟩) :
    chain.previous? slot = previous := by
  rw [previous?, node?_of_node node]
  rfl

theorem value?_of_node
    {chain : Chain α} {slot : Nat} {value : α} {previous next : Option Nat}
    (node : chain.nodes[slot]? = some ⟨some value, previous, next⟩) :
    chain.value? slot = some value := by
  rw [value?, node?_of_node node]
  rfl

/-- A slot with a value was issued. -/
theorem lt_issued_of_value?
    {chain : Chain α} {slot : Nat} {value : α}
    (held : chain.value? slot = some value) :
    slot < chain.issued := by
  rw [value?_eq] at held
  obtain ⟨node, found, _⟩ := Option.bind_eq_some_iff.mp held
  exact (Array.getElem?_eq_some_iff.mp found).1

/-! ## Links -/

private theorem nodes_setNext (chain : Chain α) (slot next : Option Nat) (index : Nat) :
    (chain.setNext slot next).nodes[index]? =
      if slot = some index then
        chain.nodes[index]?.map fun node => { node with next := next }
      else chain.nodes[index]? := by
  cases slot with
  | none => simp [setNext]
  | some slot => simp [setNext, Array.getElem?_modify]

private theorem nodes_setPrevious (chain : Chain α) (slot previous : Option Nat) (index : Nat) :
    (chain.setPrevious slot previous).nodes[index]? =
      if slot = some index then
        chain.nodes[index]?.map fun node => { node with previous := previous }
      else chain.nodes[index]? := by
  cases slot with
  | none => simp [setPrevious]
  | some slot => simp [setPrevious, Array.getElem?_modify]

/-- What joining two slots does to a slot: it gets its new link if it is one of the two. -/
theorem nodes_joined
    (chain : Chain α) (left next right previous : Option Nat) (index : Nat) :
    ((chain.setNext left next).setPrevious right previous).nodes[index]? =
      chain.nodes[index]?.map fun node =>
        ⟨node.value,
          if right = some index then previous else node.previous,
          if left = some index then next else node.next⟩ := by
  rw [nodes_setPrevious, nodes_setNext]
  cases chain.nodes[index]? with
  | none => simp
  | some node => split <;> split <;> rfl

@[simp]
theorem issued_setNext (chain : Chain α) (slot next : Option Nat) :
    (chain.setNext slot next).issued = chain.issued := by
  cases slot <;> simp [setNext, issued]

@[simp]
theorem issued_setPrevious (chain : Chain α) (slot previous : Option Nat) :
    (chain.setPrevious slot previous).issued = chain.issued := by
  cases slot <;> simp [setPrevious, issued]

@[simp]
theorem length_setNext (chain : Chain α) (slot next : Option Nat) :
    (chain.setNext slot next).length = chain.length := by
  cases slot <;> rfl

@[simp]
theorem length_setPrevious (chain : Chain α) (slot previous : Option Nat) :
    (chain.setPrevious slot previous).length = chain.length := by
  cases slot <;> rfl

theorem first_setNext (chain : Chain α) (slot next : Option Nat) :
    (chain.setNext slot next).first = if slot = none then next else chain.first := by
  cases slot <;> rfl

@[simp]
theorem last_setNext (chain : Chain α) (slot next : Option Nat) :
    (chain.setNext slot next).last = chain.last := by
  cases slot <;> rfl

@[simp]
theorem first_setPrevious (chain : Chain α) (slot previous : Option Nat) :
    (chain.setPrevious slot previous).first = chain.first := by
  cases slot <;> rfl

theorem last_setPrevious (chain : Chain α) (slot previous : Option Nat) :
    (chain.setPrevious slot previous).last =
      if slot = none then previous else chain.last := by
  cases slot <;> rfl

@[simp]
theorem value?_setNext (chain : Chain α) (slot next : Option Nat) (index : Nat) :
    (chain.setNext slot next).value? index = chain.value? index := by
  rw [value?_eq, value?_eq, nodes_setNext]
  split
  · cases chain.nodes[index]? <;> rfl
  · rfl

@[simp]
theorem value?_setPrevious (chain : Chain α) (slot previous : Option Nat) (index : Nat) :
    (chain.setPrevious slot previous).value? index = chain.value? index := by
  rw [value?_eq, value?_eq, nodes_setPrevious]
  split
  · cases chain.nodes[index]? <;> rfl
  · rfl

/-! ## Values -/

@[simp]
theorem issued_link (chain : Chain α) (value : α) (next : Option Nat) :
    (chain.link value next).issued = chain.issued + 1 := by
  simp only [link, issued_setPrevious, issued_setNext]
  simp [issued]

@[simp]
theorem issued_modify (chain : Chain α) (slot : Nat) (change : α → α) :
    (chain.modify slot change).issued = chain.issued := by
  simp [modify, issued]

@[simp]
theorem issued_mapValues (chain : Chain α) (change : α → α) :
    (chain.mapValues change).issued = chain.issued := by
  simp [mapValues, issued]

/-- Linking a value in fills the next slot and leaves the values of all others. -/
theorem value?_link (chain : Chain α) (value : α) (next : Option Nat) (index : Nat) :
    (chain.link value next).value? index =
      if index = chain.issued then some value else chain.value? index := by
  rw [link, value?_setPrevious, value?_setNext, value?_eq, value?_eq, Array.getElem?_push,
    issued]
  split <;> rfl

theorem value?_modify (chain : Chain α) (slot : Nat) (change : α → α) (index : Nat) :
    (chain.modify slot change).value? index =
      if slot = index then (chain.value? index).map change else chain.value? index := by
  simp only [modify, value?_eq, Array.getElem?_modify]
  split
  · cases chain.nodes[index]? <;> rfl
  · rfl

@[simp]
theorem value?_mapValues (chain : Chain α) (change : α → α) (index : Nat) :
    (chain.mapValues change).value? index = (chain.value? index).map change := by
  simp only [mapValues, value?_eq, Array.getElem?_map]
  cases chain.nodes[index]? <;> rfl

private theorem map_modify_eq
    {nodes : Array (Node α)} {slot : Nat} {first second : Node α → Node α}
    (commute : ∀ node, first (second node) = second (first node)) :
    (nodes.modify slot first).map second = (nodes.map second).modify slot first := by
  apply Array.ext_getElem?
  intro index
  rw [Array.getElem?_map, Array.getElem?_modify, Array.getElem?_modify, Array.getElem?_map]
  split
  · cases nodes[index]? with
    | none => rfl
    | some node => exact congrArg some (commute node).symm
  · rfl

private theorem mapValues_setNext (chain : Chain α) (slot next : Option Nat) (change : α → α) :
    (chain.setNext slot next).mapValues change = (chain.mapValues change).setNext slot next := by
  cases slot with
  | none => rfl
  | some slot =>
      rw [setNext, mapValues, map_modify_eq]
      · rfl
      · exact fun _ => rfl

private theorem mapValues_setPrevious
    (chain : Chain α) (slot previous : Option Nat) (change : α → α) :
    (chain.setPrevious slot previous).mapValues change =
      (chain.mapValues change).setPrevious slot previous := by
  cases slot with
  | none => rfl
  | some slot =>
      rw [setPrevious, mapValues, map_modify_eq]
      · rfl
      · exact fun _ => rfl

/-- Changing values after linking one in is linking the changed value in. -/
theorem mapValues_link (chain : Chain α) (value : α) (next : Option Nat) (change : α → α) :
    (chain.link value next).mapValues change =
      (chain.mapValues change).link (change value) next := by
  have before : (chain.mapValues change).beforeNext next = chain.beforeNext next := by
    cases next with
    | none => rfl
    | some slot =>
        simp only [beforeNext, mapValues, Array.getElem?_map]
        cases chain.nodes[slot]? <;> rfl
  simp only [link, mapValues_setNext, mapValues_setPrevious, before, issued_mapValues]
  simp only [mapValues, Array.map_push]
  rfl

theorem next?_mapValues (chain : Chain α) (change : α → α) (index : Nat) :
    (chain.mapValues change).next? index = chain.next? index := by
  simp only [next?, node?, mapValues, Array.getElem?_map]
  cases chain.nodes[index]? with
  | none => rfl
  | some node => cases held : node.value <;> simp [Node.mapValue, Option.filter, held]

/-- A value can be taken out of every slot that has one, and out of no other. -/
theorem unlink?_eq_some_iff
    {chain result : Chain α} {slot : Nat} {value : α} :
    chain.unlink? slot = some (value, result) ↔
      ∃ previous next,
        chain.nodes[slot]? = some ⟨some value, previous, next⟩ ∧
          result =
            (Chain.setNext
              { chain with
                nodes := chain.nodes.modify slot fun _ => ⟨none, none, none⟩
                length := chain.length - 1 }
              previous next).setPrevious next previous := by
  constructor
  · intro taken
    unfold unlink? at taken
    split at taken
    · rename_i found previous next node
      simp only [Option.some.injEq, Prod.mk.injEq] at taken
      obtain ⟨rfl, rfl⟩ := taken
      exact ⟨previous, next, node, rfl⟩
    · simp at taken
  · rintro ⟨previous, next, node, rfl⟩
    simp [unlink?, node]

/-- Taking a value out empties its slot and leaves the values of all others. -/
theorem value?_unlink
    {chain result : Chain α} {slot : Nat} {value : α}
    (taken : chain.unlink? slot = some (value, result)) (index : Nat) :
    result.value? index = if slot = index then none else chain.value? index := by
  obtain ⟨previous, next, node, rfl⟩ := unlink?_eq_some_iff.mp taken
  rw [value?_setPrevious, value?_setNext, value?_eq, value?_eq, Array.getElem?_modify]
  split
  · cases chain.nodes[index]? <;> rfl
  · rfl

@[simp]
theorem issued_unlink
    {chain result : Chain α} {slot : Nat} {value : α}
    (taken : chain.unlink? slot = some (value, result)) :
    result.issued = chain.issued := by
  obtain ⟨previous, next, node, rfl⟩ := unlink?_eq_some_iff.mp taken
  simp only [issued_setPrevious, issued_setNext]
  simp [issued]

end BytecodePatch.Chain
