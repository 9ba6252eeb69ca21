import BytecodePatch.Proofs.Chain.Entries

/-!
# Strict operations on chains

The operations on chains look slots up without asking whether they were issued, and take a
value out of a slot without asking whether it has one. A strict operation does the same and
asks: it has no result where an access fails. It has to be told nothing else than that the
links are in order for its accesses not to fail.
-/

namespace BytecodePatch

/-- A count that is lowered by one, which fails at zero. -/
def lowered (count : Nat) : Option Nat :=
  if count = 0 then none else some (count - 1)

theorem lowered_eq {count : Nat} (positive : 0 < count) : lowered count = some (count - 1) :=
  if_neg (Nat.pos_iff_ne_zero.mp positive)

namespace Chain

variable {α : Type}

def setNextStrict (chain : Chain α) (slot next : Option Nat) : Option (Chain α) :=
  if slot.all (· < chain.issued) then some (chain.setNext slot next) else none

def setPreviousStrict (chain : Chain α) (slot previous : Option Nat) : Option (Chain α) :=
  if slot.all (· < chain.issued) then some (chain.setPrevious slot previous) else none

def beforeNextStrict (chain : Chain α) (next : Option Nat) : Option (Option Nat) :=
  match next with
  | some slot => chain.nodes[slot]?.map Node.previous
  | none => some chain.last

def linkStrict (chain : Chain α) (value : α) (next : Option Nat) : Option (Chain α) := do
  let previous ← chain.beforeNextStrict next
  let grown : Chain α :=
    { chain with
      nodes := chain.nodes.push ⟨some value, previous, next⟩
      length := chain.length + 1 }
  let joined ← grown.setNextStrict previous (some chain.issued)
  joined.setPreviousStrict next (some chain.issued)

/-- There must be a value in the slot. -/
def unlinkStrict (chain : Chain α) (slot : Nat) : Option (α × Chain α) := do
  let node ← chain.nodes[slot]?
  let value ← node.value
  let length ← lowered chain.length
  let shrunk : Chain α :=
    { chain with
      nodes := chain.nodes.modify slot fun _ => ⟨none, none, none⟩
      length := length }
  let joined ← shrunk.setNextStrict node.previous node.next
  let result ← joined.setPreviousStrict node.next node.previous
  return (value, result)

def valueStrict (chain : Chain α) (slot : Nat) : Option α := do
  let node ← chain.nodes[slot]?
  node.value

/-- There must be a node in every slot that the walk comes to, and the walk must be over when
the bound is reached. -/
def entriesFromStrict (chain : Chain α) : (bound : Nat) → Option Nat → Option (List (Nat × α))
  | _, none => some []
  | 0, some _ => none
  | bound + 1, some slot => do
      let node ← chain.nodes[slot]?
      match node.value with
      | some value => do
          let entries ← chain.entriesFromStrict bound node.next
          return (slot, value) :: entries
      | none => return []

def entriesStrict (chain : Chain α) : Option (List (Nat × α)) :=
  chain.entriesFromStrict chain.issued chain.first

theorem valueStrict_eq (chain : Chain α) (slot : Nat) :
    chain.valueStrict slot = chain.value? slot :=
  (chain.value?_eq slot).symm

/-! ## Linked chains -/

theorem setNextStrict_eq
    {chain : Chain α} {slot : Option Nat} (next : Option Nat)
    (inside : ∀ index ∈ slot, index < chain.issued) :
    chain.setNextStrict slot next = some (chain.setNext slot next) := by
  apply if_pos
  simpa [Option.all_eq_true] using inside

theorem setPreviousStrict_eq
    {chain : Chain α} {slot : Option Nat} (previous : Option Nat)
    (inside : ∀ index ∈ slot, index < chain.issued) :
    chain.setPreviousStrict slot previous = some (chain.setPrevious slot previous) := by
  apply if_pos
  simpa [Option.all_eq_true] using inside

namespace Linked

variable {chain : Chain α} {before after : List Nat} {slot : Nat}

theorem lt_issued_of_getLast? (linked : chain.Linked (before ++ after)) :
    ∀ index ∈ before.getLast?, index < chain.issued := by
  intro index last
  exact linked.lt_issued (List.mem_append_left after (List.mem_of_getLast? last))

theorem lt_issued_of_head? (linked : chain.Linked (before ++ after)) :
    ∀ index ∈ after.head?, index < chain.issued := by
  intro index head
  exact linked.lt_issued (List.mem_append_right before (List.mem_of_mem_head? head))

theorem linkStrict_eq (value : α) (linked : chain.Linked (before ++ after)) :
    chain.linkStrict value after.head? = some (chain.link value after.head?) := by
  have previous : chain.beforeNextStrict after.head? = some before.getLast? := by
    rw [← linked.beforeNext_eq]
    cases after with
    | nil => rfl
    | cons slot rest =>
        rcases linked.node before slot rest rfl with ⟨held, node⟩
        simp [beforeNextStrict, beforeNext, node]
  let grown : Chain α :=
    { chain with
      nodes := chain.nodes.push ⟨some value, before.getLast?, after.head?⟩
      length := chain.length + 1 }
  have more : chain.issued ≤ grown.issued := by
    simp [grown, issued]
  have joined :
      grown.setNextStrict before.getLast? (some chain.issued) =
        some (grown.setNext before.getLast? (some chain.issued)) := by
    apply setNextStrict_eq
    exact fun index last => Nat.lt_of_lt_of_le (linked.lt_issued_of_getLast? index last) more
  have finished :
      (grown.setNext before.getLast? (some chain.issued)).setPreviousStrict after.head?
          (some chain.issued) =
        some ((grown.setNext before.getLast? (some chain.issued)).setPrevious after.head?
          (some chain.issued)) := by
    apply setPreviousStrict_eq
    rw [issued_setNext]
    exact fun index head => Nat.lt_of_lt_of_le (linked.lt_issued_of_head? index head) more
  rw [linkStrict, previous, Chain.link, linked.beforeNext_eq]
  exact (congrArg (Option.bind · _) joined).trans finished

theorem unlinkStrict_eq (linked : chain.Linked (before ++ slot :: after)) :
    chain.unlinkStrict slot = chain.unlink? slot := by
  rcases linked.node before slot after rfl with ⟨value, node⟩
  have counted : 0 < chain.length := by
    rw [linked.length, List.length_append, List.length_cons]
    omega
  have regrouped : chain.Linked ((before ++ [slot]) ++ after) := by
    simpa using linked
  let shrunk : Chain α :=
    { chain with
      nodes := chain.nodes.modify slot fun _ => ⟨none, none, none⟩
      length := chain.length - 1 }
  have same : shrunk.issued = chain.issued := by
    simp [shrunk, issued]
  have joined :
      shrunk.setNextStrict before.getLast? after.head? =
        some (shrunk.setNext before.getLast? after.head?) := by
    apply setNextStrict_eq
    rw [same]
    exact linked.lt_issued_of_getLast?
  have finished :
      (shrunk.setNext before.getLast? after.head?).setPreviousStrict after.head?
          before.getLast? =
        some ((shrunk.setNext before.getLast? after.head?).setPrevious after.head?
          before.getLast?) := by
    apply setPreviousStrict_eq
    rw [issued_setNext, same]
    exact regrouped.lt_issued_of_head?
  simp only [unlinkStrict, unlink?, node, Option.bind_eq_bind, Option.bind_some,
    lowered_eq counted]
  rw [joined, Option.bind_some, finished]
  rfl

theorem entriesFromStrict_eq :
    ∀ (after before : List Nat) (bound : Nat),
      chain.Linked (before ++ after) →
        after.length ≤ bound →
          chain.entriesFromStrict bound after.head? = some (chain.entriesFrom bound after.head?)
  | [], _, bound, _, _ => by
      cases bound <;> rfl
  | slot :: rest, _, 0, _, enough => by
      simp at enough
  | slot :: rest, before, bound + 1, linked, enough => by
      rcases linked.node before slot rest rfl with ⟨value, node⟩
      have regrouped : chain.Linked ((before ++ [slot]) ++ rest) := by
        simpa using linked
      have restEnough : rest.length ≤ bound := by
        simpa using enough
      have others := entriesFromStrict_eq rest (before ++ [slot]) bound regrouped restEnough
      rw [List.head?_cons, entriesFromStrict, node, Option.bind_eq_bind, Option.bind_some,
        others, entriesFrom, value?_of_node node, next?_of_node node]
      rfl

end Linked

namespace WellLinked

variable {chain : Chain α} {left right : List (Nat × α)} {slot : Nat} {value : α}

theorem linkStrict_eq
    (wellLinked : chain.WellLinked) (new : α)
    (cut : chain.entries = left ++ right) :
    chain.linkStrict new (right.head?.map Prod.fst) =
      some (chain.link new (right.head?.map Prod.fst)) := by
  rw [← List.head?_map]
  exact (wellLinked.linked_of_cut cut).linkStrict_eq new

theorem unlinkStrict_eq
    (wellLinked : chain.WellLinked)
    (cut : chain.entries = left ++ (slot, value) :: right) :
    chain.unlinkStrict slot = chain.unlink? slot :=
  (wellLinked.linked_of_cut cut).unlinkStrict_eq

theorem entriesStrict_eq (wellLinked : chain.WellLinked) :
    chain.entriesStrict = some chain.entries := by
  have linked := wellLinked.linked
  rw [entriesStrict, entries, linked.first]
  exact Linked.entriesFromStrict_eq _ [] _ linked linked.length_le_issued

end WellLinked

end Chain

end BytecodePatch
