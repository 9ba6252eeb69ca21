import BytecodePatch.Proofs.Code.Sound
import BytecodePatch.Proofs.Patch.Whole

/-!
# Cursors and edits keep code sound

What is inserted, removed or replaced at a cursor, and each of the edits made of several such
steps, leaves sound code behind. An edit that stops half way leaves sound code as well, since
each of its steps does.
-/

namespace BytecodePatch

variable {code result : Code} {cursor : Cursor} {instr : Instr Handle}

/-! ## Edits at a cursor -/

namespace Cursor

/-- An insertion at a cursor keeps code sound, whether it is carried out or refused. -/
theorem sound_of_emit
    {answer : Except PatchError Handle} {moved : Cursor}
    (sound : code.Sound) (outcome : cursor.emit code instr = (answer, moved, result)) :
    result.Sound := by
  cases answer with
  | error error =>
      obtain ⟨-, rfl⟩ := eq_of_emit_eq_error sound.linked outcome
      exact sound
  | ok handle =>
      obtain ⟨inserted, placed, _, ⟨_, rfl⟩ | ⟨source, count, _, redirected⟩⟩ :=
        insertAt_of_emit outcome
      · exact sound.insertAt placed
      · exact (sound.insertAt placed).retargetFrom redirected

/-- However far an emission of several instructions gets, the code it leaves is sound. -/
theorem sound_emitAll :
    ∀ (instrs : List (Instr Handle)) {cursor : Cursor} {code : Code},
      code.Sound → (cursor.emitAll code instrs).code.Sound
  | [], _, _, sound => sound
  | instr :: instrs, cursor, code, sound => by
      unfold emitAll
      split
      · rename_i refused
        exact sound_of_emit sound refused
      · rename_i emitted
        exact sound_emitAll instrs (sound_of_emit sound emitted)

/-- A removal at a cursor keeps code sound, whether it is carried out or refused. -/
theorem sound_of_remove
    {count : Nat} {repair : Repair} {answer : Except PatchError (List (Instr Handle))}
    {moved : Cursor}
    (sound : code.Sound) (outcome : cursor.remove code count repair = (answer, moved, result)) :
    result.Sound := by
  cases answer with
  | error error =>
      obtain ⟨-, rfl⟩ := eq_of_remove_eq_error sound.linked outcome
      exact sound
  | ok gone =>
      obtain ⟨_, _, _, _, taken, _⟩ := removeRange_of_remove outcome
      exact sound.removeRange taken

end Cursor

/-! ## Edits in several steps -/

namespace Edit

theorem sound_guard
    (sound : code.Sound) (branch : Handle) (condition : List (Instr Handle)) :
    (guard code branch condition).2.Sound := by
  unfold guard
  split
  · exact sound
  · split
    · exact sound
    · split
      · exact sound
      · dsimp only
        split
        · exact sound
        · exact Cursor.sound_emitAll _ sound

theorem sound_of_insertAllBefore {anchor : Handle} :
    ∀ {instrs : List (Instr Handle)} {code result : Code} {handles : List Handle},
      code.Sound → insertAllBefore anchor instrs code = .ok (handles, result) → result.Sound
  | [], _, _, _, sound, done => by
      obtain rfl := congrArg Prod.snd (Except.ok.inj done)
      exact sound
  | instr :: instrs, _, _, _, sound, done => by
      obtain ⟨⟨handle, inserted⟩, placed, rest⟩ := bind_eq_ok_iff.mp done
      obtain ⟨⟨handles, last⟩, others, answered⟩ := bind_eq_ok_iff.mp rest
      obtain rfl := congrArg Prod.snd (pure_eq_ok_iff.mp answered)
      exact sound_of_insertAllBefore (sound.insertBefore placed) others

theorem sound_withdraw (sound : code.Sound) :
    ∀ handles : List Handle, (withdraw code handles).Sound
  | [] => sound
  | _ :: handles => (sound_withdraw sound handles).remove rfl

theorem sound_replaceRange
    (sound : code.Sound) (first : Handle) (count : Nat) (replacement : List (Instr Handle)) :
    (replaceRange code first count replacement).2.Sound := by
  unfold replaceRange
  split
  · exact sound
  · split
    · exact sound
    · dsimp only
      split
      · exact sound
      · rename_i handles inserted placed
        obtain ⟨_, _, rest⟩ := bind_eq_ok_iff.mp placed
        obtain ⟨_, _, placedAll⟩ := bind_eq_ok_iff.mp rest
        have insertedSound := sound_of_insertAllBefore sound placedAll
        split
        · rename_i removed
          exact insertedSound.removeRange removed
        · rename_i refused
          exact sound_withdraw (insertedSound.removeRange refused) handles

theorem sound_replaceCallArgument
    (sound : code.Sound) (literal : Handle) (replacement : List (Instr Handle)) :
    (replaceCallArgument code literal replacement).2.Sound := by
  unfold replaceCallArgument
  split
  · exact sound
  · split
    · exact sound
    · have replaced := sound_replaceRange sound literal 1 replacement
      dsimp only
      split <;> split <;> assumption

theorem sound_hookAfterStore (sound : code.Sound) (field hook : Symbol) :
    (hookAfterStore code field hook).2.Sound := by
  unfold hookAfterStore
  dsimp only
  split
  · exact sound
  · exact Cursor.sound_emitAll _ sound

end Edit

/-! ## Widening -/

theorem sound_of_insertConversions {widening : Widening} :
    ∀ {leaves : List Handle} {code result : Code} {handles : List Handle},
      code.Sound → widening.insertConversions leaves code = .ok (handles, result) →
        result.Sound
  | [], _, _, _, sound, done => by
      obtain rfl := congrArg Prod.snd (Except.ok.inj done)
      exact sound
  | leaf :: leaves, _, _, _, sound, done => by
      obtain ⟨⟨handle, inserted⟩, placed, rest⟩ := bind_eq_ok_iff.mp done
      obtain ⟨⟨handles, last⟩, others, answered⟩ := bind_eq_ok_iff.mp rest
      obtain rfl := congrArg Prod.snd (pure_eq_ok_iff.mp answered)
      exact sound_of_insertConversions (sound.insertAfter placed) others

theorem Body.sound_of_widen
    {body widened : Body} {last : Handle} {widening : Widening} {report : WideningReport}
    (sound : body.code.Sound)
    (done : body.widen last widening = .ok (report, widened)) :
    widened.code.Sound := by
  obtain ⟨position, _, rest⟩ := bind_eq_ok_iff.mp done
  dsimp only at rest
  split at rest
  · exact absurd rest throw_ne_ok
  · exact absurd rest throw_ne_ok
  · obtain ⟨⟨conversions, code⟩, placed, answered⟩ := bind_eq_ok_iff.mp rest
    obtain rfl := congrArg Prod.snd (pure_eq_ok_iff.mp answered)
    exact sound_of_insertConversions sound (liftRejection_eq_ok_iff.mp placed)

end BytecodePatch
