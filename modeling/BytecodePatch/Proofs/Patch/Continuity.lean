import BytecodePatch.Proofs.Code.Continuity
import BytecodePatch.Proofs.Patch.Whole

/-!
# Edits in several steps go on

Whatever an edit at a cursor or an edit of several steps gets done, what it leaves goes on
from the code before it, and the handles it answers are new. This holds as well for what was
inserted and withdrawn again when the removal of a range was refused.
-/

namespace BytecodePatch

/-- The handles that an attempt answers. It answers none if it is refused. -/
def answeredHandles {ε α : Type} (handles : α → List Handle) : Except ε α → List Handle
  | .ok value => handles value
  | .error _ => []

variable {Named Replaced : Handle → Prop}
variable {code result : Code} {cursor moved : Cursor} {instr : Instr Handle} {handle : Handle}

open Code (Continues)

/-! ## Edits at a cursor -/

namespace Cursor

theorem continues_of_emit
    (linked : code.WellLinked)
    (named : ∀ source, cursor.pending = some source → Named source)
    (done : cursor.emit code instr = (.ok handle, moved, result)) :
    Continues Named Replaced code [handle] result ∧ moved.pending = none := by
  obtain ⟨inserted, placed, rfl, moves⟩ := insertAt_of_emit done
  obtain ⟨before, after, placement⟩ := Code.inserted_of_insertAt linked placed
  have started : Continues Named Replaced code [handle] inserted :=
    .of_inserted linked placement
  refine ⟨?_, rfl⟩
  rcases moves with ⟨_, rfl⟩ | ⟨source, count, pending, redirected⟩
  · exact started
  · have retargeting := Code.retargeted_of_retargetFrom started.linked redirected
    exact started.trans linked (.of_retargeted started.linked (named source pending) retargeting)

theorem continues_emit
    (linked : code.WellLinked)
    (named : ∀ source, cursor.pending = some source → Named source) :
    Continues Named Replaced code
      (answeredHandles (fun handle => [handle]) (cursor.emit code instr).1)
      (cursor.emit code instr).2.2 := by
  rcases outcome : cursor.emit code instr with ⟨answer, moved, result⟩
  cases answer with
  | error error =>
      obtain ⟨-, rfl⟩ := eq_of_emit_eq_error linked outcome
      exact .refl linked
  | ok handle => exact (continues_of_emit linked named outcome).1

theorem continues_emitAll :
    ∀ (instrs : List (Instr Handle)) {cursor : Cursor} {code : Code},
      code.WellLinked →
        (∀ source, cursor.pending = some source → Named source) →
          Continues Named Replaced code
            (answeredHandles id (cursor.emitAll code instrs).handles)
            (cursor.emitAll code instrs).code
  | [], _, _, linked, _ => .refl linked
  | instr :: instrs, cursor, code, linked, named => by
      unfold emitAll
      split
      · rename_i refused
        obtain ⟨-, rfl⟩ := eq_of_emit_eq_error linked refused
        exact .refl linked
      · rename_i handle moved emitted done
        obtain ⟨started, spent⟩ :
            Continues Named Replaced code [handle] emitted ∧ moved.pending = none :=
          continues_of_emit linked named done
        have nothing : ∀ source, moved.pending = some source → Named source := by
          intro source pending
          rw [spent] at pending
          cases pending
        have others := continues_emitAll instrs started.linked nothing
        have whole := started.trans linked others
        dsimp only
        cases answered : (moved.emitAll emitted instrs).handles with
        | error error => exact whole.fewer (List.nil_sublist _)
        | ok handles =>
            rw [answered] at whole
            exact whole

theorem continues_of_remove
    {count : Nat} {repair : Repair} {answer : Except PatchError (List (Instr Handle))}
    (linked : code.WellLinked)
    (outcome : cursor.remove code count repair = (answer, moved, result)) :
    Continues Named Replaced code [] result := by
  cases answer with
  | error error =>
      obtain ⟨-, rfl⟩ := eq_of_remove_eq_error linked outcome
      exact .refl linked
  | ok gone =>
      obtain ⟨_, _, _, _, taken, _⟩ := removeRange_of_remove outcome
      exact .of_removeRange linked taken

end Cursor

/-! ## Edits in several steps -/

namespace Edit

theorem continues_guard
    (linked : code.WellLinked) (branch : Handle) (condition : List (Instr Handle)) :
    Continues Named Replaced code (answeredHandles id (guard code branch condition).1)
      (guard code branch condition).2 := by
  unfold guard
  split
  · exact .refl linked
  · split
    · exact .refl linked
    · split
      · exact .refl linked
      · dsimp only
        split
        · exact .refl linked
        · exact Cursor.continues_emitAll _ linked fun source pending => by cases pending

theorem continues_of_insertAllBefore {anchor : Handle} :
    ∀ {instrs : List (Instr Handle)} {code result : Code} {handles : List Handle},
      code.WellLinked →
        insertAllBefore anchor instrs code = .ok (handles, result) →
          Continues Named Replaced code handles result
  | [], _, _, _, linked, done => by
      obtain ⟨rfl, rfl⟩ := Prod.mk.inj (Except.ok.inj done)
      exact .refl linked
  | instr :: instrs, code, _, _, linked, done => by
      obtain ⟨⟨handle, inserted⟩, placed, rest⟩ := bind_eq_ok_iff.mp done
      obtain ⟨⟨handles, last⟩, others, answered⟩ := bind_eq_ok_iff.mp rest
      obtain ⟨rfl, rfl⟩ := Prod.mk.inj (pure_eq_ok_iff.mp answered)
      obtain ⟨_, _, placement⟩ := Code.inserted_of_insertAt linked placed
      have started : Continues Named Replaced code [handle] inserted :=
        .of_inserted linked placement
      exact started.trans linked (continues_of_insertAllBefore started.linked others)

theorem continues_withdraw (linked : code.WellLinked) :
    ∀ handles : List Handle, Continues Named Replaced code [] (withdraw code handles)
  | [] => .refl linked
  | handle :: handles => by
      have shorter : Continues Named Replaced code [] (withdraw code handles) :=
        continues_withdraw linked handles
      exact shorter.trans linked (.of_remove shorter.linked rfl)

/-- What replacing a range does once its new instructions are in. -/
private theorem continues_of_placed
    {first : Handle} {count : Nat} {replacement : List (Instr Handle)}
    {handles : List Handle} {inserted : Code}
    (linked : code.WellLinked) (nonempty : replacement ≠ []) (positive : count ≠ 0)
    (placed :
      (do
        checkAll code replacement
        discard <| code.get first
        insertAllBefore first replacement code) = .ok (handles, inserted)) :
    Continues Named Replaced code handles (replaceRange code first count replacement).2 ∧
      (answeredHandles id (replaceRange code first count replacement).1).Sublist handles := by
  obtain ⟨_, _, rest⟩ := bind_eq_ok_iff.mp placed
  obtain ⟨_, _, placedAll⟩ := bind_eq_ok_iff.mp rest
  have started : Continues Named Replaced code handles inserted :=
    continues_of_insertAllBefore linked placedAll
  have filled : replacement.isEmpty ≠ true := by
    simpa using nonempty
  unfold replaceRange
  rw [if_neg filled, if_neg positive]
  dsimp only
  rw [placed]
  dsimp only
  split
  · rename_i removed
    have finished := started.trans linked (.of_removeRange started.linked removed)
    rw [List.append_nil] at finished
    exact ⟨finished, List.Sublist.refl _⟩
  · rename_i refused
    have reached := started.trans linked (.of_removeRange started.linked refused)
    have finished := reached.trans linked (continues_withdraw reached.linked handles)
    rw [List.append_nil, List.append_nil] at finished
    exact ⟨finished, List.nil_sublist _⟩

theorem continues_replaceRange
    (linked : code.WellLinked) (first : Handle) (count : Nat)
    (replacement : List (Instr Handle)) :
    Continues Named Replaced code
      (answeredHandles id (replaceRange code first count replacement).1)
      (replaceRange code first count replacement).2 := by
  by_cases empty : replacement = []
  · subst empty
    exact .refl linked
  · by_cases zero : count = 0
    · have filled : replacement.isEmpty ≠ true := by
        simpa using empty
      rw [replaceRange, if_neg filled, if_pos zero]
      exact .refl linked
    · cases placed : (do
          checkAll code replacement
          discard <| code.get first
          insertAllBefore first replacement code) with
      | error rejection =>
          have filled : replacement.isEmpty ≠ true := by
            simpa using empty
          rw [replaceRange, if_neg filled, if_neg zero]
          dsimp only
          rw [placed]
          exact .refl linked
      | ok inserted =>
          obtain ⟨continued, answered⟩ := continues_of_placed linked empty zero placed
          exact continued.fewer answered

/-- The handles of what was inserted are issued, and new, also if it was withdrawn again. -/
theorem continues_of_inserted
    {first : Handle} {count : Nat} {replacement : List (Instr Handle)}
    {handles : List Handle} {inserted : Code}
    (linked : code.WellLinked) (positive : count ≠ 0)
    (accepted : checkAll code replacement = .ok ())
    (placed : insertAllBefore first replacement code = .ok (handles, inserted)) :
    Continues Named Replaced code handles (replaceRange code first count replacement).2 := by
  cases replacement with
  | nil =>
      obtain ⟨rfl, rfl⟩ := Prod.mk.inj (Except.ok.inj placed)
      exact .refl linked
  | cons instr instrs =>
      obtain ⟨_, placedFirst, _⟩ := bind_eq_ok_iff.mp placed
      obtain ⟨⟨⟩, live, _⟩ := bind_eq_ok_iff.mp placedFirst
      obtain ⟨held, found⟩ := Option.isSome_iff_exists.mp (Code.require_eq_ok_iff.mp live)
      have whole :
          (do
            checkAll code (instr :: instrs)
            discard <| code.get first
            insertAllBefore first (instr :: instrs) code) = .ok (handles, inserted) := by
        rw [accepted, Code.get_eq_ok_iff.mpr found]
        exact placed
      exact (continues_of_placed linked (List.cons_ne_nil _ _) positive whole).1

theorem continues_replaceCallArgument
    (linked : code.WellLinked) (literal : Handle) (replacement : List (Instr Handle)) :
    Continues Named Replaced code
      (answeredHandles id (replaceCallArgument code literal replacement).1)
      (replaceCallArgument code literal replacement).2 := by
  unfold replaceCallArgument
  split
  · exact .refl linked
  · split
    · exact .refl linked
    · have replaced :
          Continues Named Replaced code
            (answeredHandles id (replaceRange code literal 1 replacement).1)
            (replaceRange code literal 1 replacement).2 :=
        continues_replaceRange linked literal 1 replacement
      have refused : Continues Named Replaced code [] code := .refl linked
      dsimp only
      split <;> split <;> assumption

theorem continues_hookAfterStore
    (linked : code.WellLinked) (field hook : Symbol) :
    Continues Named Replaced code (answeredHandles id (hookAfterStore code field hook).1)
      (hookAfterStore code field hook).2 := by
  unfold hookAfterStore
  dsimp only
  split
  · exact .refl linked
  · rename_i window cursor found
    have landed := Cursor.eq_land_of_findOrFail found
    refine Cursor.continues_emitAll _ linked fun source pending => ?_
    rw [landed] at pending
    cases pending

end Edit

/-! ## Widening -/

private theorem continues_of_insertConversions {widening : Widening} :
    ∀ {leaves : List Handle} {code result : Code} {handles : List Handle},
      code.WellLinked →
        widening.insertConversions leaves code = .ok (handles, result) →
          Continues Named Replaced code handles result
  | [], _, _, _, linked, done => by
      obtain ⟨rfl, rfl⟩ := Prod.mk.inj (Except.ok.inj done)
      exact .refl linked
  | leaf :: leaves, code, _, _, linked, done => by
      obtain ⟨⟨handle, inserted⟩, placed, rest⟩ := bind_eq_ok_iff.mp done
      obtain ⟨⟨handles, last⟩, others, answered⟩ := bind_eq_ok_iff.mp rest
      obtain ⟨rfl, rfl⟩ := Prod.mk.inj (pure_eq_ok_iff.mp answered)
      obtain ⟨_, _, _, _, placement⟩ := Code.inserted_of_insertAfter linked placed
      have started : Continues Named Replaced code [handle] inserted :=
        .of_inserted linked placement
      exact started.trans linked (continues_of_insertConversions started.linked others)

theorem Body.continues_of_widen
    {body widened : Body} {last : Handle} {widening : Widening} {report : WideningReport}
    (linked : body.code.WellLinked)
    (done : body.widen last widening = .ok (report, widened)) :
    Continues Named Replaced body.code report.conversions widened.code := by
  obtain ⟨position, _, rest⟩ := bind_eq_ok_iff.mp done
  dsimp only at rest
  split at rest
  · exact absurd rest throw_ne_ok
  · exact absurd rest throw_ne_ok
  · obtain ⟨⟨conversions, code⟩, placed, answered⟩ := bind_eq_ok_iff.mp rest
    obtain ⟨rfl, rfl⟩ := Prod.mk.inj (pure_eq_ok_iff.mp answered)
    exact continues_of_insertConversions linked (liftRejection_eq_ok_iff.mp placed)

end BytecodePatch
