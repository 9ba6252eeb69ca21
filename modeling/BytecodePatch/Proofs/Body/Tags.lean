import BytecodePatch.Proofs.Body.Image
import BytecodePatch.Proofs.Program.Change

/-!
# Bodies up to the identity of their code

New code gets an identity that no other code has, and its handles bear it. Two bodies that
differ in nothing else are the same body once the identity is taken away: handles of the code
keep only their slots, and handles of other code are no longer told apart. How long a body is,
whether it passes its verification, and its image do not depend on the identity.
-/

namespace BytecodePatch

namespace Code

/-- A handle without the identity of the code. -/
def untagHandle (code : Code) (handle : Handle) : Handle :=
  match code.slot? handle with
  | some slot => ⟨0, slot⟩
  | none => ⟨1, 0⟩

def untagged (code : Code) : Code :=
  { code.mapInstrs (Instr.map code.untagHandle) with tag := 0 }

theorem slot?_untagHandle (code : Code) (handle : Handle) :
    code.untagged.slot? (code.untagHandle handle) = code.slot? handle := by
  unfold untagHandle
  split
  · rename_i slot named
    rw [named]
    rfl
  · rename_i foreign
    rw [foreign]
    rfl

theorem untagHandle_handleOf (code : Code) (slot : Nat) :
    code.untagHandle (code.handleOf slot) = ⟨0, slot⟩ := by
  rw [untagHandle, slot?_handleOf]

theorem contains_untagHandle (code : Code) (handle : Handle) :
    code.untagged.contains (code.untagHandle handle) = code.contains handle := by
  rw [contains, get?, slot?_untagHandle, contains, get?]
  cases code.slot? handle with
  | none => rfl
  | some slot =>
      rw [Option.bind_some, Option.bind_some, untagged, mapInstrs, Chain.value?_mapValues,
        Option.isSome_map]

theorem lines_untagged (code : Code) :
    code.untagged.lines =
      code.lines.map fun line =>
        ⟨code.untagHandle line.handle, line.instr.map code.untagHandle⟩ := by
  simp only [lines, untagged, mapInstrs, Chain.entries_mapValues, List.map_map]
  apply List.map_congr_left
  intro entry _
  simp only [Function.comp_apply, untagHandle_handleOf]
  rfl

theorem handles_untagged (code : Code) :
    code.untagged.handles = code.handles.map code.untagHandle := by
  rw [handles, lines_untagged, handles, List.map_map, List.map_map]
  rfl

theorem verify_untagged (code : Code) :
    code.untagged.verify = .ok () ↔ code.verify = .ok () := by
  rw [verify_eq_ok_iff, verify_eq_ok_iff, lines_untagged, List.forall_mem_map]
  simp only [Line.refs, Instr.refs_map, List.forall_mem_map, contains_untagHandle]

/-- A live handle keeps its position. -/
theorem position?_untagHandle (code : Code) (handle : Handle) :
    code.untagged.position? (code.untagHandle handle) = code.position? handle := by
  unfold position?
  rw [contains_untagHandle]
  by_cases live : code.contains handle = true
  · rw [if_pos live, if_pos live]
    rcases Option.isSome_iff_exists.mp live with ⟨instr, found⟩
    rcases exists_slot_of_get? found with ⟨slot, rfl, _⟩
    -- handles of the code are told apart by their slots, with and without the identity
    have told : Function.Injective code.handleOf := fun _ _ => code.handleOf_inj.mp
    have toldUntagged : Function.Injective (code.untagHandle ∘ code.handleOf) := by
      intro one other equal
      simpa [untagHandle_handleOf] using equal
    rw [handles_untagged, handles_eq]
    generalize code.chain.entries.map Prod.fst = slots
    rw [List.map_map]
    exact (idxOf?_map fun _ _ equal => toldUntagged equal).trans
      (idxOf?_map fun _ _ equal => told equal).symm
  · rw [if_neg live, if_neg live]

theorem positionOf_untagHandle (code : Code) (handle : Handle) :
    code.untagged.positionOf (code.untagHandle handle) = code.positionOf handle := by
  rw [positionOf, position?_untagHandle, positionOf]

end Code

namespace Body

def untagged (body : Body) : Body :=
  { body with code := body.code.untagged }

theorem image_untagged (body : Body) : body.untagged.image = body.image := by
  unfold image untagged
  congr 1
  rw [Code.lines_untagged, List.map_map]
  apply List.map_congr_left
  intro line _
  rw [Function.comp_apply, Instr.map_map]
  exact Instr.map_congr fun ref _ => body.code.positionOf_untagHandle ref

/-- Whether code passes its verification does not depend on its identity. -/
theorem verify_iff_of_untagged_eq
    {first second : Body} (same : first.untagged = second.untagged) :
    first.code.verify = .ok () ↔ second.code.verify = .ok () := by
  calc
    first.code.verify = .ok () ↔ first.untagged.code.verify = .ok () :=
      first.code.verify_untagged.symm
    _ ↔ second.untagged.code.verify = .ok () := by rw [same]
    _ ↔ second.code.verify = .ok () := second.code.verify_untagged

end Body

/-- A program without the identities of the code in it. -/
def Program.untagged (program : Program) : Program :=
  program.mapMethods fun _ method => { method with body := method.body.map Body.untagged }

end BytecodePatch
