import BytecodePatch.Proofs.Code.Editing
import BytecodePatch.Proofs.Run.Action

/-!
# Reachable code is a sequence

Behind its slots and links, all code that a run reaches is the list of its lines: it is read
as this list and every edit that succeeds acts on it as on this list.
-/

namespace BytecodePatch

theorem sequence_of_run
    {start : Code} (origin : Origin start) (actions : List Action) :
    (start.run actions).ReadsAsList ∧ (start.run actions).InsertsAsList ∧
      (start.run actions).ChangesAsList ∧ (start.run actions).EditsByPosition := by
  have linked := (origin.sound.run actions).linked
  exact ⟨linked.readsAsList, linked.insertsAsList, linked.changesAsList,
    linked.editsByPosition⟩

/-- Three instructions of which the first two went, with one inserted where they stood: the
lines are in an order that is not that of their slots. -/
theorem sequence_of_run_insertion :
    let reached := (Code.empty 0).run
      [.append (.plain .nop), .append (.plain .dup), .append (.plain .ret),
        .removeRange ⟨0, 0⟩ 2 .reject, .insertBeforeAt 0 (.plain .pop)]
    Origin (.empty 0) ∧
      (reached.ReadsAsList ∧ reached.InsertsAsList ∧ reached.ChangesAsList ∧
        reached.EditsByPosition) ∧
      reached.lines = [⟨⟨0, 3⟩, .plain .pop⟩, ⟨⟨0, 2⟩, .plain .ret⟩] :=
  ⟨.empty 0, sequence_of_run (.empty 0) _, by rfl⟩

end BytecodePatch
