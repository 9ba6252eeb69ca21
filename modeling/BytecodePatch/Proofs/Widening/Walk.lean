import BytecodePatch.Proofs.Patch.Whole
import BytecodePatch.Proofs.Widening.Expression

/-!
# Walks over expressions

Going back over the lines in front of a place, a walk with some operands still to be found
gets to its end exactly if that many expressions are listed there, one behind the other. It
then visits the lines of these expressions from the last to the first. So a walk that starts
with one operand finds one expression, and this is the only one that ends there.
-/

namespace BytecodePatch

variable {body : Body} {widening : Widening} {tree : Expression}

/-! ## Loads of the narrow type -/

namespace Widening

theorem acceptsLiteral_eq_true_iff {value : Literal} :
    widening.acceptsLiteral value = true ↔ value.valueType = widening.narrow := by
  cases widening <;> cases value <;> simp [acceptsLiteral, narrow, Literal.valueType]

/-- A variable is accepted if it is declared with the narrow type. -/
private theorem ofVariable_eq_none_iff {found : Option ValueType} :
    (match found with
      | none => some Misfit.undeclaredVariable
      | some found =>
          if found = widening.narrow then none
          else some (.wrongVariable widening.narrow.text found.text)) = none ↔
      found = some widening.narrow := by
  cases found with
  | none => simp
  | some found => simp

/-- The producers without a misfit are the loads of the narrow type. -/
theorem leafMisfit?_eq_none_iff {instr : Instr Handle} :
    widening.leafMisfit? body instr = none ↔ body.Loads widening.narrow instr := by
  obtain ⟨opcode, operand⟩ := instr
  constructor
  · intro fits
    unfold leafMisfit? at fits
    dsimp only at fits
    split at fits
    · cases operand with
      | literal value =>
          have accepted : widening.acceptsLiteral value = true := by
            by_contra refused
            rw [Instr.literal?, Option.any_some, if_neg refused] at fits
            cases fits
          exact .literal (acceptsLiteral_eq_true_iff.mp accepted)
      | _ => cases fits
    · have declared := ofVariable_eq_none_iff.mp fits
      cases operand with
      | localSlot index => exact .localSlot declared
      | _ => cases declared
    · have declared := ofVariable_eq_none_iff.mp fits
      cases operand with
      | argument index => exact .argument declared
      | _ => cases declared
    · cases fits
  · intro loads
    cases loads with
    | literal typed => exact if_pos (acceptsLiteral_eq_true_iff.mpr typed)
    | localSlot declared => exact ofVariable_eq_none_iff.mpr declared
    | argument declared => exact ofVariable_eq_none_iff.mpr declared

/-! ## Steps of a walk -/

section Steps

variable {pending : Nat} {line : Line} {lines : List Line} {visited : Walk}

theorem walk_of_loads (loads : body.Loads widening.narrow line.instr) :
    widening.walk body (pending + 1) (line :: lines) =
      (widening.walk body pending lines).map (⟨line.handle, .producer, pending⟩ :: ·) := by
  rw [walk, loads.stackRole_eq, leafMisfit?_eq_none_iff.mpr loads]
  rfl

theorem walk_of_arithmetic (arithmetic : line.instr.opcode ∈ Opcode.arithmetic) :
    widening.walk body (pending + 1) (line :: lines) =
      (widening.walk body (pending + 2) lines).map
        (⟨line.handle, .binaryOp, pending + 2⟩ :: ·) := by
  rw [walk, Opcode.stackRole_eq_binaryOp_iff.mpr arithmetic]
  rfl

/-- A walk goes on behind a load or an arithmetic operation only. -/
theorem walk_cases
    (walked : widening.walk body (pending + 1) (line :: lines) = .ok visited) :
    (body.Loads widening.narrow line.instr ∧
        ∃ others, widening.walk body pending lines = .ok others) ∨
      (line.instr.opcode ∈ Opcode.arithmetic ∧
        ∃ others, widening.walk body (pending + 2) lines = .ok others) := by
  rw [walk] at walked
  split at walked
  · cases walked
  · rename_i role
    obtain ⟨others, othersWalked, _⟩ := bind_eq_ok_iff.mp walked
    exact Or.inr ⟨Opcode.stackRole_eq_binaryOp_iff.mp role, others, othersWalked⟩
  · split at walked
    · cases walked
    · rename_i fits
      obtain ⟨others, othersWalked, _⟩ := bind_eq_ok_iff.mp walked
      exact Or.inl ⟨leafMisfit?_eq_none_iff.mp fits, others, othersWalked⟩

end Steps

end Widening

/-! ## Walks and expressions -/

/-- The visits of a walk to an expression, with a number of operands to be found before. -/
def Expression.visits (pending : Nat) : Expression → Walk
  | leaf line => [⟨line.handle, .producer, pending⟩]
  | binary line left right =>
      ⟨line.handle, .binaryOp, pending + 2⟩ ::
        (right.visits (pending + 1) ++ left.visits pending)

/-- A walk goes back over an expression and has found one operand more. -/
theorem Widening.walk_listing
    (typed : tree.OfType body widening.narrow) (pending : Nat) (rest : List Line) :
    widening.walk body (pending + 1) (tree.listing.reverse ++ rest) =
      (widening.walk body pending rest).map (tree.visits pending ++ ·) := by
  induction typed generalizing pending rest with
  | leaf loads => exact Widening.walk_of_loads loads
  | @binary line left right arithmetic _ _ leftHypothesis rightHypothesis =>
      rw [Expression.reverse_listing_binary, List.cons_append, List.append_assoc,
        Widening.walk_of_arithmetic arithmetic, rightHypothesis, leftHypothesis]
      cases widening.walk body pending rest with
      | error failure => rfl
      | ok others => simp [Except.map, Expression.visits]

/-- Where a walk gets to its end, it has gone back over as many expressions as there were
operands to be found. -/
theorem Widening.exists_trees_of_walk
    {pending : Nat} {lines : List Line} {visited : Walk}
    (walked : widening.walk body pending lines = .ok visited) :
    ∃ trees : List Expression, ∃ rest,
      trees.length = pending ∧ (∀ tree ∈ trees, tree.OfType body widening.narrow) ∧
        lines = trees.flatMap (fun tree => tree.listing.reverse) ++ rest := by
  induction lines generalizing pending visited with
  | nil =>
      cases pending with
      | zero => exact ⟨[], [], rfl, List.forall_mem_nil _, rfl⟩
      | succ pending => cases walked
  | cons line lines inductionHypothesis =>
      cases pending with
      | zero => exact ⟨[], line :: lines, rfl, List.forall_mem_nil _, rfl⟩
      | succ pending =>
          rcases Widening.walk_cases walked with
            ⟨loads, others, onwards⟩ | ⟨arithmetic, others, onwards⟩
          · obtain ⟨trees, rest, length, typed, rfl⟩ := inductionHypothesis onwards
            refine ⟨.leaf line :: trees, rest, ?_, ?_, ?_⟩
            · rw [List.length_cons, length]
            · exact List.forall_mem_cons.mpr ⟨.leaf loads, typed⟩
            · simp
          · obtain ⟨trees, rest, length, typed, rfl⟩ := inductionHypothesis onwards
            -- the operation takes the two expressions that were found first
            obtain ⟨right, trees, rfl⟩ := List.exists_of_length_succ trees length
            obtain ⟨left, trees, rfl⟩ := List.exists_of_length_succ trees (Nat.succ.inj length)
            obtain ⟨rightTyped, typed⟩ := List.forall_mem_cons.mp typed
            obtain ⟨leftTyped, typed⟩ := List.forall_mem_cons.mp typed
            refine ⟨.binary line left right :: trees, rest, ?_, ?_, ?_⟩
            · simpa using length
            · exact List.forall_mem_cons.mpr ⟨.binary arithmetic leftTyped rightTyped, typed⟩
            · simp

/-- A walk with one operand to be found gets to its end exactly if one expression is listed
there, and visits this expression. -/
theorem Widening.walk_one_eq_ok_iff {lines : List Line} {visited : Walk} :
    widening.walk body 1 lines = .ok visited ↔
      ∃ tree : Expression, ∃ rest,
        tree.OfType body widening.narrow ∧ lines = tree.listing.reverse ++ rest ∧
          visited = tree.visits 0 := by
  constructor
  · intro walked
    obtain ⟨trees, rest, length, typed, rfl⟩ := Widening.exists_trees_of_walk walked
    obtain ⟨tree, rfl⟩ := List.length_eq_one_iff.mp length
    have treeTyped := typed tree List.mem_cons_self
    rw [List.flatMap_singleton, Widening.walk_listing treeTyped] at walked
    obtain ⟨others, ended, rfl⟩ := map_eq_ok_iff.mp walked
    rw [Widening.walk] at ended
    obtain rfl := Except.ok.inj ended
    exact ⟨tree, rest, treeTyped, by rw [List.flatMap_singleton], List.append_nil _⟩
  · rintro ⟨tree, rest, typed, rfl, rfl⟩
    rw [Widening.walk_listing typed, Widening.walk, Except.map, List.append_nil]

/-! ## What a walk reports -/

/-- The pending counts of a walk that begins with some operands still to be found: a load
finds one, an operation asks for one more, and the walk ends when none is left. -/
inductive Walk.Counts : Nat → Walk → Prop where
  | done : Walk.Counts 0 []
  | producer {handle : Handle} {pending : Nat} {others : Walk}
      (onwards : Walk.Counts pending others) :
      Walk.Counts (pending + 1) (⟨handle, .producer, pending⟩ :: others)
  | binaryOp {handle : Handle} {pending : Nat} {others : Walk}
      (onwards : Walk.Counts (pending + 2) others) :
      Walk.Counts (pending + 1) (⟨handle, .binaryOp, pending + 2⟩ :: others)

namespace Walk.Counts

variable {pending : Nat} {walk : Walk}

/-- What goes on has some operand to be found. -/
theorem pending_pos {step : WalkStep} (counts : Walk.Counts pending (step :: walk)) :
    0 < pending := by
  cases counts with
  | producer onwards => exact Nat.succ_pos _
  | binaryOp onwards => exact Nat.succ_pos _

/-- Some operand is still to be found after every step but the last. -/
theorem positive (counts : Walk.Counts pending walk) :
    ∀ step ∈ walk.dropLast, 0 < step.pending := by
  induction counts with
  | done => exact List.forall_mem_nil _
  | @producer handle pending others onwards inductionHypothesis =>
      cases others with
      | nil => exact List.forall_mem_nil _
      | cons next others =>
          exact List.forall_mem_cons.mpr ⟨onwards.pending_pos, inductionHypothesis⟩
  | @binaryOp handle pending others onwards inductionHypothesis =>
      cases others with
      | nil => exact List.forall_mem_nil _
      | cons next others =>
          exact List.forall_mem_cons.mpr ⟨onwards.pending_pos, inductionHypothesis⟩

/-- None is left after the last step. -/
theorem final (counts : Walk.Counts pending walk) (started : 0 < pending) :
    walk.getLast?.map WalkStep.pending = some 0 := by
  induction counts with
  | done => exact absurd started (Nat.lt_irrefl 0)
  | @producer handle pending others onwards inductionHypothesis =>
      cases others with
      | nil =>
          cases onwards
          rfl
      | cons next others => exact inductionHypothesis onwards.pending_pos
  | @binaryOp handle pending others onwards inductionHypothesis =>
      cases others with
      | nil => cases onwards
      | cons next others => exact inductionHypothesis onwards.pending_pos

end Walk.Counts

namespace Expression

theorem counts_visits
    {pending : Nat} {others : Walk} (tree : Expression)
    (onwards : Walk.Counts pending others) :
    Walk.Counts (pending + 1) (tree.visits pending ++ others) := by
  induction tree generalizing pending others with
  | leaf line => exact .producer onwards
  | binary line left right leftHypothesis rightHypothesis =>
      rw [visits, List.cons_append, List.append_assoc]
      exact .binaryOp (rightHypothesis (leftHypothesis onwards))

/-- The visited leaves are those of the expression from right to left. -/
theorem leaves_visits (pending : Nat) (tree : Expression) :
    (tree.visits pending).leaves = (tree.leaves.map Line.handle).reverse := by
  induction tree generalizing pending with
  | leaf line => rfl
  | binary line left right leftHypothesis rightHypothesis =>
      have parts :
          ((binary line left right).visits pending).leaves =
            (right.visits (pending + 1)).leaves ++ (left.visits pending).leaves := by
        simp [visits, Walk.leaves]
      rw [parts, leftHypothesis, rightHypothesis, leaves, List.map_append,
        List.reverse_append]

/-- All lines of the expression are visited, from the last to the first. -/
theorem map_visits
    (typed : tree.OfType body widening.narrow) (pending : Nat) :
    (tree.visits pending).map (fun step => (step.handle, step.role)) =
      (tree.listing.map fun line => (line.handle, line.instr.opcode.stackRole)).reverse := by
  induction typed generalizing pending with
  | leaf loads =>
      rw [listing_leaf, List.map_singleton, loads.stackRole_eq]
      rfl
  | binary arithmetic _ _ leftHypothesis rightHypothesis =>
      rw [visits, List.map_cons, List.map_append, leftHypothesis, rightHypothesis,
        ← Opcode.stackRole_eq_binaryOp_iff.mpr arithmetic]
      simp

end Expression

end BytecodePatch
