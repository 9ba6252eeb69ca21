import BytecodePatch.Proofs.Run.Action

/-!
# Integrity of all reachable code

Whatever a run does to code, every operand fits its opcode and every branch has a target that
is there. So reachable code can always be verified and flattened, and its image loaded again.
-/

namespace BytecodePatch

/-- Nothing is wrong with code: its live instructions have their shapes and refer to live
instructions of the same code, and it can leave the patcher and come back. -/
structure Code.Intact (code : Code) : Prop where
  shape :
    ∀ handle instr, code.get? handle = some instr → instr.HasShape
  live :
    ∀ handle instr,
      code.get? handle = some instr → ∀ ref ∈ instr.refs, code.contains ref = true
  verified : code.verify = .ok ()
  flattened :
    ∀ args locals,
      ∃ image,
        Body.flatten ⟨args, locals, code⟩ = .ok image ∧
          ∀ tag, ∃ body, image.load tag = .ok body

theorem Code.Sound.intact {code : Code} (sound : code.Sound) : code.Intact where
  shape := by
    intro handle instr found
    exact sound.shape _ (sound.linked.get?_eq_some_iff.mp found)
  live := by
    intro handle instr found ref member
    have live := sound.live _ (sound.linked.get?_eq_some_iff.mp found) ref member
    exact sound.linked.contains_iff.mpr live
  verified := sound.verify_eq_ok
  flattened := by
    intro args locals
    have bodySound : (⟨args, locals, code⟩ : Body).code.Sound := sound
    refine ⟨_, Body.flatten_of_sound bodySound, ?_⟩
    intro tag
    exact ⟨_, Image.load_eq_ok_iff.mpr ⟨Body.loadable_image bodySound, rfl⟩⟩

/-- All code that a run reaches is intact. -/
theorem intact_of_run
    {start : Code} (origin : Origin start) (actions : List Action) :
    (start.run actions).Intact :=
  (origin.sound.run actions).intact

/-- A loaded switch: the removal of its last target is refused, and that of the other one
changes the target that named it. -/
theorem intact_of_run_switch :
    let start :=
      (⟨[], [], [⟨.switch, .targets [1, 2]⟩, ⟨.nop, .none⟩, ⟨.ret, .none⟩]⟩ : Image).codeOf 7
    let reached :=
      start.run [.remove ⟨7, 2⟩ .following, .remove ⟨7, 1⟩ .following, .append (.plain .ret)]
    Origin start ∧ reached.Intact ∧
      reached.get? ⟨7, 0⟩ = some ⟨.switch, .targets [⟨7, 2⟩, ⟨7, 2⟩]⟩ := by
  intro start reached
  have loaded :
      (⟨[], [], [⟨.switch, .targets [1, 2]⟩, ⟨.nop, .none⟩, ⟨.ret, .none⟩]⟩ : Image).load 7 =
        .ok ⟨[], [], start⟩ := by
    rfl
  have origin : Origin start := .loaded loaded
  exact ⟨origin, intact_of_run origin _, by decide +kernel⟩

end BytecodePatch
