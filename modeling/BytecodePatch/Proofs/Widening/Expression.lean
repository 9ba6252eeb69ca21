import BytecodePatch.Patch.Widening
import Mathlib.Data.List.Basic

/-!
# Arithmetic expressions in code

An expression is a tree of lines: a leaf loads a value, and any other node combines the values
of its two operands. It is listed with the operands in front of their operation. Read from its
end, a listing determines its expression, and put on a stack machine it pushes the value of the
expression, whatever the stack and whatever code follows.
-/

namespace BytecodePatch

def Literal.valueType : Literal → ValueType
  | int32 _ => .int32
  | int64 _ => .int64
  | float32 _ => .float32
  | float64 _ => .float64
  | string _ => .string

/-- An instruction loads a literal, a local variable or an argument of a type. -/
inductive Body.Loads (body : Body) (type : ValueType) : Instr Handle → Prop where
  | literal {value : Literal} (typed : value.valueType = type) :
      Loads body type ⟨.loadConst, .literal value⟩
  | localSlot {index : UInt16} (declared : body.localType? index = some type) :
      Loads body type ⟨.loadLocal, .localSlot index⟩
  | argument {index : UInt16} (declared : body.argumentType? index = some type) :
      Loads body type ⟨.loadArg, .argument index⟩

theorem Body.Loads.stackRole_eq
    {body : Body} {type : ValueType} {instr : Instr Handle} (loads : body.Loads type instr) :
    instr.opcode.stackRole = .producer := by
  cases loads <;> rfl

namespace Opcode

def loads : List Opcode :=
  [loadConst, loadLocal, loadArg]

def arithmetic : List Opcode :=
  [add, sub, mul, div, rem]

def conversions : List Opcode :=
  [convF32, convF64, convI32, convI64]

theorem stackRole_eq_binaryOp_iff {opcode : Opcode} :
    opcode.stackRole = .binaryOp ↔ opcode ∈ arithmetic := by
  cases opcode <;> decide

theorem stackRole_eq_producer_iff {opcode : Opcode} :
    opcode.stackRole = .producer ↔ opcode ∈ loads := by
  cases opcode <;> decide

end Opcode

/-- An arithmetic expression, with the lines that load its leaves and that combine them. -/
inductive Expression where
  | leaf (line : Line)
  | binary (line : Line) (left right : Expression)

namespace Expression

/-- The lines of an expression, operands in front of their operation, with some lines in place
of each leaf. -/
def listingWith (ofLeaf : Line → List Line) : Expression → List Line
  | leaf line => ofLeaf line
  | binary line left right => left.listingWith ofLeaf ++ right.listingWith ofLeaf ++ [line]

/-- The lines that compute an expression. -/
def listing (tree : Expression) : List Line :=
  tree.listingWith fun line => [line]

/-- The leaves of an expression from left to right. -/
def leaves : Expression → List Line
  | leaf line => [line]
  | binary _ left right => left.leaves ++ right.leaves

def operations : Expression → List Line
  | leaf _ => []
  | binary line left right => left.operations ++ right.operations ++ [line]

/-- The leaves of an expression load values of a type, and the other nodes are arithmetic. -/
inductive OfType (body : Body) (type : ValueType) : Expression → Prop where
  | leaf {line : Line} (loads : body.Loads type line.instr) : OfType body type (.leaf line)
  | binary {line : Line} {left right : Expression}
      (arithmetic : line.instr.opcode ∈ Opcode.arithmetic)
      (leftTyped : OfType body type left) (rightTyped : OfType body type right) :
      OfType body type (.binary line left right)

variable {body : Body} {type : ValueType} {tree other : Expression} {line : Line}

@[simp]
theorem listing_leaf (line : Line) : (leaf line).listing = [line] :=
  rfl

@[simp]
theorem listing_binary (line : Line) (left right : Expression) :
    (binary line left right).listing = left.listing ++ right.listing ++ [line] :=
  rfl

/-- The line at the root of an expression. -/
def root : Expression → Line
  | leaf line => line
  | binary line _ _ => line

/-- A listing ends with the root. -/
theorem getLast?_listing (tree : Expression) : tree.listing.getLast? = some tree.root := by
  cases tree with
  | leaf line => rfl
  | binary line left right => exact List.getLast?_concat

theorem length_leaves (tree : Expression) :
    tree.leaves.length = tree.operations.length + 1 := by
  induction tree with
  | leaf line => rfl
  | binary line left right leftHypothesis rightHypothesis =>
      simp only [leaves, operations, List.length_append, List.length_singleton,
        leftHypothesis, rightHypothesis]
      omega

/-- Every line of a listing is a leaf or an operation, and only one of them. -/
theorem listing_perm (tree : Expression) :
    tree.listing.Perm (tree.leaves ++ tree.operations) := by
  induction tree with
  | leaf line => exact List.Perm.refl [line]
  | binary line left right leftHypothesis rightHypothesis =>
      have together := (leftHypothesis.append rightHypothesis).append_right [line]
      have commuted :
          (left.operations ++ right.leaves).Perm (right.leaves ++ left.operations) :=
        List.perm_append_comm
      have swapped :=
        (commuted.append_left left.leaves).append_right (right.operations ++ [line])
      simp only [List.append_assoc] at together swapped
      simp only [listing_binary, leaves, operations, List.append_assoc]
      exact together.trans swapped

/-- What is put behind each line of a listing goes into it, if it is put behind leaves only. -/
theorem flatMap_listing
    {around : Line → List Line}
    (untouched : ∀ line ∈ tree.operations, around line = [line]) :
    tree.listing.flatMap around = tree.listingWith around := by
  induction tree with
  | leaf line => simp [listingWith]
  | binary line left right leftHypothesis rightHypothesis =>
      simp only [operations, List.mem_append, List.mem_singleton] at untouched
      rw [listing_binary, List.flatMap_append, List.flatMap_append,
        leftHypothesis fun other member => untouched other (Or.inl (Or.inl member)),
        rightHypothesis fun other member => untouched other (Or.inl (Or.inr member)),
        List.flatMap_singleton, untouched line (Or.inr rfl), listingWith]

theorem listingWith_congr
    {ofLeaf ofOther : Line → List Line}
    (same : ∀ line ∈ tree.leaves, ofLeaf line = ofOther line) :
    tree.listingWith ofLeaf = tree.listingWith ofOther := by
  induction tree with
  | leaf line => exact same line List.mem_cons_self
  | binary line left right leftHypothesis rightHypothesis =>
      rw [listingWith, listingWith,
        leftHypothesis fun other member => same other (List.mem_append_left _ member),
        rightHypothesis fun other member => same other (List.mem_append_right _ member)]

/-! ## Reading from the end -/

@[simp]
theorem reverse_listing_binary (line : Line) (left right : Expression) :
    (binary line left right).listing.reverse =
      line :: (right.listing.reverse ++ left.listing.reverse) := by
  simp

/-- Read from its end, a listing determines its expression and what stands in front of it. -/
theorem eq_of_reverse_listing_append
    {rest otherRest : List Line}
    (typed : tree.OfType body type) (otherTyped : other.OfType body type)
    (same : tree.listing.reverse ++ rest = other.listing.reverse ++ otherRest) :
    tree = other ∧ rest = otherRest := by
  induction typed generalizing other rest otherRest with
  | leaf loads =>
      cases otherTyped with
      | leaf otherLoads =>
          obtain ⟨rfl, rfl⟩ := List.cons.inj same
          exact ⟨rfl, rfl⟩
      | binary arithmetic _ _ =>
          rw [reverse_listing_binary] at same
          obtain ⟨rfl, _⟩ := List.cons.inj same
          have role := Opcode.stackRole_eq_binaryOp_iff.mpr arithmetic
          cases loads.stackRole_eq.symm.trans role
  | @binary line left right arithmetic _ _ leftHypothesis rightHypothesis =>
      cases otherTyped with
      | leaf loads =>
          rw [reverse_listing_binary] at same
          obtain ⟨rfl, _⟩ := List.cons.inj same
          have role := Opcode.stackRole_eq_binaryOp_iff.mpr arithmetic
          cases loads.stackRole_eq.symm.trans role
      | binary _ otherLeftTyped otherRightTyped =>
          rw [reverse_listing_binary, reverse_listing_binary, List.cons_append,
            List.cons_append, List.append_assoc, List.append_assoc] at same
          obtain ⟨rfl, operands⟩ := List.cons.inj same
          obtain ⟨rfl, remaining⟩ := rightHypothesis otherRightTyped operands
          obtain ⟨rfl, sameRest⟩ := leftHypothesis otherLeftTyped remaining
          exact ⟨rfl, sameRest⟩

end Expression

/-! ## Symbolic execution -/

/-- A value as it was computed. -/
inductive Term where
  | load (instr : Instr Handle)
  | convert (opcode : Opcode) (value : Term)
  | combine (opcode : Opcode) (left right : Term)

namespace Term

/-- The stack after a load, a conversion or an arithmetic operation. -/
def step (instr : Instr Handle) (stack : List Term) : Option (List Term) :=
  if instr.opcode ∈ Opcode.loads then some (.load instr :: stack)
  else if instr.opcode ∈ Opcode.arithmetic then
    match stack with
    | right :: left :: stack => some (.combine instr.opcode left right :: stack)
    | _ => none
  else if instr.opcode ∈ Opcode.conversions then
    match stack with
    | value :: stack => some (.convert instr.opcode value :: stack)
    | [] => none
  else none

/-- The stack after lines, one after another. -/
def execute : List Line → List Term → Option (List Term)
  | [], stack => some stack
  | line :: lines, stack => (step line.instr stack).bind (execute lines)

theorem step_of_loads
    {instr : Instr Handle} (loads : instr.opcode ∈ Opcode.loads) (stack : List Term) :
    step instr stack = some (.load instr :: stack) := by
  unfold step
  rw [if_pos loads]

theorem step_of_arithmetic
    {instr : Instr Handle} (arithmetic : instr.opcode ∈ Opcode.arithmetic)
    (right left : Term) (stack : List Term) :
    step instr (right :: left :: stack) =
      some (.combine instr.opcode left right :: stack) := by
  have noLoad : instr.opcode ∉ Opcode.loads := by
    intro loads
    have role := Opcode.stackRole_eq_binaryOp_iff.mpr arithmetic
    cases (Opcode.stackRole_eq_producer_iff.mpr loads).symm.trans role
  unfold step
  rw [if_neg noLoad, if_pos arithmetic]

theorem step_conversion
    (widening : Widening) (value : Term) (stack : List Term) :
    step (.plain widening.conversion) (value :: stack) =
      some (.convert widening.conversion value :: stack) := by
  cases widening <;> rfl

theorem execute_append (lines more : List Line) (stack : List Term) :
    execute (lines ++ more) stack = (execute lines stack).bind (execute more) := by
  induction lines generalizing stack with
  | nil => rfl
  | cons line lines inductionHypothesis =>
      rw [List.cons_append, execute, execute, Option.bind_assoc]
      congr 1
      funext stack
      exact inductionHypothesis stack

end Term

namespace Expression

open Term

variable {body : Body} {type : ValueType} {tree : Expression}

/-- The value of an expression, with each loaded value wrapped. -/
def term (wrap : Term → Term) : Expression → Term
  | leaf line => wrap (.load line.instr)
  | binary line left right => .combine line.instr.opcode (left.term wrap) (right.term wrap)

/-- Where the lines in place of each leaf push its wrapped value, the lines of the expression
push the value of the expression. -/
theorem execute_listingWith
    {ofLeaf : Line → List Line} {wrap : Term → Term}
    (typed : tree.OfType body type)
    (pushes :
      ∀ line stack,
        body.Loads type line.instr →
          execute (ofLeaf line) stack = some (wrap (.load line.instr) :: stack))
    (stack : List Term) :
    execute (tree.listingWith ofLeaf) stack = some (tree.term wrap :: stack) := by
  induction typed generalizing stack with
  | leaf loads => exact pushes _ stack loads
  | @binary line left right arithmetic _ _ leftHypothesis rightHypothesis =>
      rw [listingWith, execute_append, execute_append, leftHypothesis, Option.bind_some,
        rightHypothesis, Option.bind_some, execute, step_of_arithmetic arithmetic]
      rfl

/-- The listing of an expression pushes its value. -/
theorem execute_listing
    (typed : tree.OfType body type) (stack : List Term) :
    execute tree.listing stack = some (tree.term id :: stack) := by
  apply execute_listingWith typed
  intro line stack loads
  have producer := Opcode.stackRole_eq_producer_iff.mp loads.stackRole_eq
  rw [execute, step_of_loads producer]
  rfl

/-- With a conversion behind each leaf, the listing pushes the value with each loaded value
converted. -/
theorem execute_converted
    (typed : tree.OfType body type) (widening : Widening) (named : Handle → Handle)
    (stack : List Term) :
    execute
        (tree.listingWith fun line =>
          [line, ⟨named line.handle, .plain widening.conversion⟩]) stack =
      some (tree.term (.convert widening.conversion) :: stack) := by
  apply execute_listingWith typed
  intro line stack loads
  have producer := Opcode.stackRole_eq_producer_iff.mp loads.stackRole_eq
  rw [execute, step_of_loads producer, Option.bind_some, execute, step_conversion]
  rfl

end Expression

end BytecodePatch
