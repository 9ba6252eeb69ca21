import BytecodePatch.Proofs.Code.Retargeting
import BytecodePatch.Proofs.Code.Stepwise
import BytecodePatch.Proofs.Patch.CallArgument
import BytecodePatch.Proofs.Patch.Guard
import BytecodePatch.Proofs.Patch.Hook
import BytecodePatch.Proofs.Run.Action
import BytecodePatch.Proofs.Widening.Conversions

/-!
# Edits of reachable code

In all code that a run reaches, an edit in several steps is made exactly or not at all. Slots
are retargeted where they were meant to be, a range is removed or replaced without an effect on
anything but the references into it, a guard takes no path that its branch could not take, a
hook is on all paths through its store, and a widening converts the leaves of the one expression
that it finds.
-/

namespace BytecodePatch

/-! ## Retargeting -/

/-- Retargeting changes the slots of the listed instructions that refer to the source, and
answers how many they are, or it is refused for the first handle that is not live and leaves the
code as it was. -/
theorem retargeting_of_run
    {start : Code} (origin : Origin start) (actions : List Action)
    {source destination : Handle} (apart : source ≠ destination) (branches : List Handle) :
    (start.run actions).RetargetsExactly branches source destination :=
  (origin.sound.run actions).linked.retargetsExactly apart branches

/-- A switch that refers twice to a branch to itself. It is listed twice and counts once. With
a handle that names nothing at the end of the list, nothing is changed. -/
theorem retargeting_of_run_switch :
    let reached := (Code.empty 0).run
      [.append (.plain .nop), .append ⟨.branchIfTrue, .target ⟨0, 0⟩⟩,
        .replaceOperand ⟨0, 1⟩ (.target ⟨0, 1⟩),
        .insertBeforeAt 0 ⟨.switch, .targets [⟨0, 1⟩, ⟨0, 0⟩, ⟨0, 1⟩]⟩]
    let branches : List Handle := [⟨0, 2⟩, ⟨0, 1⟩, ⟨0, 2⟩]
    Origin (.empty 0) ∧ (⟨0, 1⟩ : Handle) ≠ ⟨0, 0⟩ ∧
      reached.RetargetsExactly branches ⟨0, 1⟩ ⟨0, 0⟩ ∧
      (reached.retargetFrom branches ⟨0, 1⟩ ⟨0, 0⟩).1 = .ok 3 ∧
      (reached.run [.retargetFrom branches ⟨0, 1⟩ ⟨0, 0⟩]).lines =
        [⟨⟨0, 2⟩, ⟨.switch, .targets [⟨0, 0⟩, ⟨0, 0⟩, ⟨0, 0⟩]⟩⟩, ⟨⟨0, 0⟩, .plain .nop⟩,
          ⟨⟨0, 1⟩, ⟨.branchIfTrue, .target ⟨0, 0⟩⟩⟩] ∧
      reached.retargetFrom (branches ++ [⟨0, 9⟩]) ⟨0, 1⟩ ⟨0, 0⟩ =
        (.error (.staleHandle ⟨0, 9⟩), reached) :=
  ⟨.empty 0, by decide, retargeting_of_run (.empty 0) _ (by decide) _, by rfl,
    by decide +kernel, by rfl⟩

/-! ## Ranges -/

/-- It makes no difference to the lines that are left whether a range is removed at once, after
the references into it were sent away, or one instruction at a time. -/
theorem removals_agree_of_run
    {start : Code} (origin : Origin start) (actions : List Action)
    {first : Handle} {count : Nat} {before range after : List Line}
    (spans : (start.run actions).Spans first count before range after) :
    (start.run actions).RemovedAlike first count before range after :=
  (origin.sound.run actions).linked.removedAlike spans

/-- A switch refers to each of two instructions, of which the second branches to the first.
If the first goes first, what refers to it moves on to the second, and then to the return. -/
theorem removals_agree_of_run_switch :
    let reached := (Code.empty 0).run
      [.append (.plain .nop), .append ⟨.branch, .target ⟨0, 0⟩⟩, .append (.plain .ret),
        .insertBeforeAt 0 ⟨.switch, .targets [⟨0, 0⟩, ⟨0, 1⟩]⟩]
    let before : List Line := [⟨⟨0, 3⟩, ⟨.switch, .targets [⟨0, 0⟩, ⟨0, 1⟩]⟩⟩]
    let range : List Line :=
      [⟨⟨0, 0⟩, .plain .nop⟩, ⟨⟨0, 1⟩, ⟨.branch, .target ⟨0, 0⟩⟩⟩]
    let after : List Line := [⟨⟨0, 2⟩, .plain .ret⟩]
    let left : List Line :=
      [⟨⟨0, 3⟩, ⟨.switch, .targets [⟨0, 2⟩, ⟨0, 2⟩]⟩⟩, ⟨⟨0, 2⟩, .plain .ret⟩]
    Origin (.empty 0) ∧ reached.Spans ⟨0, 0⟩ 2 before range after ∧
      reached.RemovedAlike ⟨0, 0⟩ 2 before range after ∧
      (reached.run [.removeRange ⟨0, 0⟩ 2 .following]).lines = left ∧
      (reached.run [.remove ⟨0, 0⟩ .following, .remove ⟨0, 1⟩ .following]).lines = left ∧
      (reached.run [.remove ⟨0, 1⟩ .following, .remove ⟨0, 0⟩ .following]).lines = left := by
  intro reached before range after left
  have spans : reached.Spans ⟨0, 0⟩ 2 before range after := ⟨by rfl, by rfl, by rfl⟩
  exact ⟨.empty 0, spans, removals_agree_of_run (.empty 0) _ spans, by decide +kernel,
    by decide +kernel, by decide +kernel⟩

/-- A guard goes in behind its branch with its whole condition, or nothing changes. If the
condition is straight, the paths through it refine those of the code without it. -/
theorem guard_of_run
    {start : Code} (origin : Origin start) (actions : List Action)
    (branch : Handle) (condition : List (Instr Handle)) :
    Edit.GuardInsertion (start.run actions) branch condition
      (Edit.guard (start.run actions) branch condition) :=
  Edit.guardInsertion (origin.sound.run actions) branch condition

/-- The guard of a loop that ends with a branch back to its start. A return is not guarded. -/
theorem guard_of_run_loop :
    let reached := (Code.empty 0).run
      [.append ⟨.loadArg, .argument 0⟩, .append ⟨.branchIfTrue, .target ⟨0, 0⟩⟩,
        .append (.plain .ret)]
    let condition : List (Instr Handle) := [⟨.loadArg, .argument 1⟩]
    Origin (.empty 0) ∧
      Edit.GuardInsertion reached ⟨0, 1⟩ condition
        (Edit.guard reached ⟨0, 1⟩ condition) ∧
      (Edit.guard reached ⟨0, 1⟩ condition).2.lines =
        [⟨⟨0, 0⟩, ⟨.loadArg, .argument 0⟩⟩, ⟨⟨0, 1⟩, ⟨.branchIfTrue, .target ⟨0, 0⟩⟩⟩,
          ⟨⟨0, 3⟩, ⟨.loadArg, .argument 1⟩⟩, ⟨⟨0, 4⟩, ⟨.branchIfFalse, .target ⟨0, 0⟩⟩⟩,
          ⟨⟨0, 2⟩, .plain .ret⟩] ∧
      (Edit.guard reached ⟨0, 2⟩ condition).2 = reached :=
  ⟨.empty 0, guard_of_run (.empty 0) _ ⟨0, 1⟩ _, by decide +kernel, by decide +kernel⟩

/-! ## Hooks -/

/-- A hook goes in behind the first store to its field, and the paths are the same without it,
or there is no such store and nothing changes. -/
theorem hook_of_run
    {start : Code} (origin : Origin start) (actions : List Action) (field hook : Symbol) :
    Edit.HookInsertion (start.run actions) field hook
      (Edit.hookAfterStore (start.run actions) field hook) :=
  Edit.hookInsertion (origin.sound.run actions) field hook

/-- The first of two stores, with a branch to the instruction behind it. Another field is
never stored to. -/
theorem hook_of_run_loop :
    let field : Symbol := .field ⟨⟨0, 0⟩, 0⟩
    let other : Symbol := .field ⟨⟨0, 0⟩, 1⟩
    let hook : Symbol := .method ⟨⟨0, 0⟩, 0⟩
    let reached := (Code.empty 0).run
      [.append ⟨.storeField, .symbol field⟩, .append (.plain .nop),
        .append ⟨.branchIfTrue, .target ⟨0, 1⟩⟩, .append ⟨.storeField, .symbol field⟩]
    Origin (.empty 0) ∧
      Edit.HookInsertion reached field hook (Edit.hookAfterStore reached field hook) ∧
      (Edit.hookAfterStore reached field hook).2.lines =
        [⟨⟨0, 0⟩, ⟨.storeField, .symbol field⟩⟩, ⟨⟨0, 4⟩, ⟨.loadArg, .argument 0⟩⟩,
          ⟨⟨0, 5⟩, ⟨.call, .symbol hook⟩⟩, ⟨⟨0, 1⟩, .plain .nop⟩,
          ⟨⟨0, 2⟩, ⟨.branchIfTrue, .target ⟨0, 1⟩⟩⟩, ⟨⟨0, 3⟩, ⟨.storeField, .symbol field⟩⟩] ∧
      (Edit.hookAfterStore reached other hook).2 = reached :=
  ⟨.empty 0, hook_of_run (.empty 0) _ _ _, by decide +kernel, by decide +kernel⟩

/-! ## Arguments of calls -/

/-- A literal is replaced if a call follows it before any branch or return, and nothing else is
changed. If there is no such call, nothing is changed at all. -/
theorem argument_of_run
    {start : Code} (origin : Origin start) (actions : List Action)
    (literal : Handle) (replacement : List (Instr Handle)) :
    Edit.ArgumentReplacement (start.run actions) literal replacement
      (Edit.replaceCallArgument (start.run actions) literal replacement) :=
  Edit.argumentReplacement (origin.sound.run actions) literal replacement

/-- An argument that is branched to. The literal behind the call is no argument. -/
theorem argument_of_run_loop :
    let reached := (Code.empty 0).run
      [.append ⟨.loadConst, .literal (.int32 1)⟩,
        .append ⟨.call, .symbol (.method ⟨⟨0, 0⟩, 0⟩)⟩,
        .append ⟨.loadConst, .literal (.int32 1)⟩,
        .append ⟨.branchIfTrue, .target ⟨0, 0⟩⟩]
    let replacement : List (Instr Handle) := [⟨.loadArg, .argument 0⟩, .plain .neg]
    Origin (.empty 0) ∧
      Edit.ArgumentReplacement reached ⟨0, 0⟩ replacement
        (Edit.replaceCallArgument reached ⟨0, 0⟩ replacement) ∧
      (Edit.replaceCallArgument reached ⟨0, 0⟩ replacement).2.lines =
        [⟨⟨0, 4⟩, ⟨.loadArg, .argument 0⟩⟩, ⟨⟨0, 5⟩, .plain .neg⟩,
          ⟨⟨0, 1⟩, ⟨.call, .symbol (.method ⟨⟨0, 0⟩, 0⟩)⟩⟩,
          ⟨⟨0, 2⟩, ⟨.loadConst, .literal (.int32 1)⟩⟩,
          ⟨⟨0, 3⟩, ⟨.branchIfTrue, .target ⟨0, 4⟩⟩⟩] ∧
      (Edit.replaceCallArgument reached ⟨0, 2⟩ replacement).2 = reached :=
  ⟨.empty 0, argument_of_run (.empty 0) _ ⟨0, 0⟩ _, by decide +kernel, by decide +kernel⟩

/-- A literal is replaced although an exception is raised between it and the call. -/
theorem not_straight_argument_of_raise :
    let reached := (Code.empty 0).run
      [.append ⟨.loadConst, .literal (.int32 1)⟩, .append (.plain .raise),
        .append ⟨.call, .symbol (.method ⟨⟨0, 0⟩, 0⟩)⟩, .append (.plain .ret)]
    (Edit.replaceCallArgument reached ⟨0, 0⟩ [⟨.loadConst, .literal (.int32 2)⟩]).1 =
        .ok [⟨0, 4⟩] ∧
      ¬reached.CallFollows Opcode.isStraight ⟨0, 0⟩ := by
  intro reached
  refine ⟨by rfl, ?_⟩
  have linked : reached.WellLinked := ((Origin.empty 0).sound.run _).linked
  have cut :
      reached.lines =
        [] ++ ⟨⟨0, 0⟩, ⟨.loadConst, .literal (.int32 1)⟩⟩ ::
          [⟨⟨0, 1⟩, .plain .raise⟩, ⟨⟨0, 2⟩, ⟨.call, .symbol (.method ⟨⟨0, 0⟩, 0⟩)⟩⟩,
            ⟨⟨0, 3⟩, .plain .ret⟩] := by
    decide +kernel
  intro follows
  obtain ⟨between, call, rest, lines, called, straight⟩ :=
    (Edit.callFollows_iff_of_cut linked cut).mp follows
  cases between with
  | nil =>
      obtain rfl := (List.cons.inj lines).1
      cases called
  | cons line between =>
      obtain rfl := (List.cons.inj lines).1
      cases straight _ List.mem_cons_self

/-! ## Widening -/

/-- A widening succeeds exactly if an expression of the narrow type ends at its instruction.
There is only one, its leaves are converted and nothing else changes. -/
theorem widening_of_run
    {start : Code} (origin : Origin start) (actions : List Action)
    (args locals : List ValueType) (last : Handle) (widening : Widening) :
    ExpressionWidening ⟨args, locals, start.run actions⟩ last widening
      (Body.widen ⟨args, locals, start.run actions⟩ last widening) := by
  have linked : (⟨args, locals, start.run actions⟩ : Body).code.WellLinked :=
    (origin.sound.run actions).linked
  exact expressionWidening linked last widening

/-- The product of a difference and a sum. -/
theorem widening_of_run_product :
    let reached := (Code.empty 0).run
      [.append ⟨.loadLocal, .localSlot 0⟩, .append ⟨.loadConst, .literal (.int32 2)⟩,
        .append (.plain .sub), .append ⟨.loadLocal, .localSlot 1⟩,
        .append ⟨.loadLocal, .localSlot 0⟩, .append (.plain .add), .append (.plain .mul)]
    let body : Body := ⟨[], [.int32, .int32], reached⟩
    Origin (.empty 0) ∧
      ExpressionWidening body ⟨0, 6⟩ .int32ToInt64
        (body.widen ⟨0, 6⟩ .int32ToInt64) ∧
      ((body.widen ⟨0, 6⟩ .int32ToInt64).map fun widened =>
        widened.1.walk.map WalkStep.pending) = .ok [2, 3, 2, 1, 2, 1, 0] ∧
      ((body.widen ⟨0, 6⟩ .int32ToInt64).map fun widened =>
          widened.2.code.lines.map fun line => line.instr.opcode) =
        .ok [.loadLocal, .convI64, .loadConst, .convI64, .sub, .loadLocal, .convI64,
          .loadLocal, .convI64, .add, .mul] :=
  ⟨.empty 0, widening_of_run (.empty 0) _ [] [.int32, .int32] ⟨0, 6⟩ .int32ToInt64, by rfl,
    by rfl⟩

end BytecodePatch
