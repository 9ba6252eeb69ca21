/-!
# Chains

A chain keeps values in an order of its own, while each value stays in the slot that it got
when it came. Slots are issued in turn and never again; a value that is taken out leaves its
slot empty. The order is kept in links: a slot with a value knows the slots before and after
it, and the chain knows its two ends and how many values it has.

Nothing here asks whether the links fit together. They do in the empty chain, and every
operation keeps them so.
-/

namespace BytecodePatch

/-- A slot with its value and its links. A slot whose value was taken out has neither. -/
structure Chain.Node (α : Type) where
  value : Option α
  previous : Option Nat
  next : Option Nat
deriving DecidableEq

/-- Values in slots, with links that put them in order. -/
structure Chain (α : Type) where
  nodes : Array (Chain.Node α)
  first : Option Nat
  last : Option Nat
  length : Nat
deriving DecidableEq

namespace Chain

variable {α : Type}

def Node.mapValue (change : α → α) (node : Node α) : Node α :=
  { node with value := node.value.map change }

def empty : Chain α :=
  ⟨#[], none, none, 0⟩

def issued (chain : Chain α) : Nat :=
  chain.nodes.size

def node? (chain : Chain α) (slot : Nat) : Option (Node α) :=
  chain.nodes[slot]?.filter fun node => node.value.isSome

def value? (chain : Chain α) (slot : Nat) : Option α :=
  (chain.node? slot).bind Node.value

def next? (chain : Chain α) (slot : Nat) : Option Nat :=
  (chain.node? slot).bind Node.next

def previous? (chain : Chain α) (slot : Nat) : Option Nat :=
  (chain.node? slot).bind Node.previous

def entriesFrom (chain : Chain α) : (bound : Nat) → Option Nat → List (Nat × α)
  | 0, _ => []
  | _ + 1, none => []
  | bound + 1, some slot =>
      match chain.value? slot with
      | some value => (slot, value) :: chain.entriesFrom bound (chain.next? slot)
      | none => []

/-- The values in order with their slots. As no slot comes twice, there are no more of them
than slots were issued. -/
def entries (chain : Chain α) : List (Nat × α) :=
  chain.entriesFrom chain.issued chain.first

/-- Makes a slot come after another. What comes after nothing is the first. -/
def setNext (chain : Chain α) (slot next : Option Nat) : Chain α :=
  match slot with
  | some slot =>
      { chain with nodes := chain.nodes.modify slot fun node => { node with next := next } }
  | none => { chain with first := next }

/-- Makes a slot come before another. What comes before nothing is the last. -/
def setPrevious (chain : Chain α) (slot previous : Option Nat) : Chain α :=
  match slot with
  | some slot =>
      { chain with
        nodes := chain.nodes.modify slot fun node => { node with previous := previous } }
  | none => { chain with last := previous }

def beforeNext (chain : Chain α) (next : Option Nat) : Option Nat :=
  match next with
  | some slot => chain.nodes[slot]?.bind Node.previous
  | none => chain.last

/-- Puts a value into the next free slot and links it before a given one, or at the end where
none is given. -/
def link (chain : Chain α) (value : α) (next : Option Nat) : Chain α :=
  let slot := chain.issued
  let previous := chain.beforeNext next
  let grown : Chain α :=
    { chain with
      nodes := chain.nodes.push ⟨some value, previous, next⟩
      length := chain.length + 1 }
  (grown.setNext previous (some slot)).setPrevious next (some slot)

def unlink? (chain : Chain α) (slot : Nat) : Option (α × Chain α) :=
  match chain.nodes[slot]? with
  | some ⟨some value, previous, next⟩ =>
      let shrunk : Chain α :=
        { chain with
          nodes := chain.nodes.modify slot fun _ => ⟨none, none, none⟩
          length := chain.length - 1 }
      some (value, (shrunk.setNext previous next).setPrevious next previous)
  | _ => none

def modify (chain : Chain α) (slot : Nat) (change : α → α) : Chain α :=
  { chain with nodes := chain.nodes.modify slot (Node.mapValue change) }

def mapValues (chain : Chain α) (change : α → α) : Chain α :=
  { chain with nodes := chain.nodes.map (Node.mapValue change) }

end Chain

end BytecodePatch
