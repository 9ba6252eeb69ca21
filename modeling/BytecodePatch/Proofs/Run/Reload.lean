import BytecodePatch.Proofs.Run.Action

/-!
# Flattening and loading are inverse

Every image that can be loaded comes back unchanged from the body it becomes. Every body that
a run reaches comes back from its image under other handles: the instructions are the same
ones in the same order, and a reference goes to the same position as before.
-/

namespace BytecodePatch

theorem flatten_load_inverse :
    (∀ (image : Image) (tag : Nat),
      ((∃ body, image.load tag = .ok body) ↔
          ∀ instr ∈ image.instrs,
            instr.HasShape ∧ ∀ ref ∈ instr.refs, ref.toNat < image.length) ∧
        ∀ body, image.load tag = .ok body → body.flatten = .ok image) ∧
      ∀ start : Code, Origin start →
        ∀ (actions : List Action) (args locals : List ValueType),
          ∃ image,
            Body.flatten ⟨args, locals, start.run actions⟩ = .ok image ∧
              ∀ tag,
                ∃ loaded move,
                  image.load tag = .ok loaded ∧
                    Body.Reloaded ⟨args, locals, start.run actions⟩ loaded move := by
  constructor
  · intro image tag
    refine ⟨?_, fun body loaded => Body.flatten_of_load loaded⟩
    constructor
    · rintro ⟨body, loaded⟩
      exact (Image.load_eq_ok_iff.mp loaded).1
    · intro loadable
      exact ⟨_, Image.load_eq_ok_iff.mpr ⟨loadable, rfl⟩⟩
  · intro start origin actions args locals
    have sound : (⟨args, locals, start.run actions⟩ : Body).code.Sound :=
      origin.sound.run actions
    refine ⟨_, Body.flatten_of_sound sound, ?_⟩
    intro tag
    obtain ⟨loaded, reload⟩ : ∃ loaded, (Body.image _).load tag = .ok loaded :=
      ⟨_, Image.load_eq_ok_iff.mpr ⟨Body.loadable_image sound, rfl⟩⟩
    exact ⟨loaded, _, reload, Body.reloaded_of_load sound reload⟩

/-- After two instructions have gone, a branch of slot three stands at the start and its
target of slot two comes second. -/
theorem flatten_load_inverse_of_branch :
    let reached := (Code.empty 0).run
      [.append (.plain .nop), .append (.plain .nop), .append (.plain .ret),
        .insertBefore ⟨0, 2⟩ ⟨.branch, .target ⟨0, 2⟩⟩, .removeRange ⟨0, 0⟩ 2 .reject]
    let image : Image := ⟨[], [], [⟨.branch, .target 1⟩, ⟨.ret, .none⟩]⟩
    Origin (.empty 0) ∧ Body.flatten ⟨[], [], reached⟩ = .ok image ∧
      ∃ loaded move,
        image.load 9 = .ok loaded ∧ loaded.flatten = .ok image ∧
          Body.Reloaded ⟨[], [], reached⟩ loaded move := by
  intro reached image
  have origin : Origin (.empty 0) := .empty 0
  obtain ⟨found, flattened, reload⟩ := flatten_load_inverse.2 (.empty 0) origin _ [] []
  have imageEq : Body.flatten ⟨[], [], reached⟩ = .ok image := by
    rfl
  obtain rfl : found = image := Except.ok.inj (flattened.symm.trans imageEq)
  obtain ⟨loaded, move, loads, reloaded⟩ := reload 9
  exact ⟨origin, imageEq, loaded, move, loads, (flatten_load_inverse.1 _ 9).2 _ loads, reloaded⟩

end BytecodePatch
