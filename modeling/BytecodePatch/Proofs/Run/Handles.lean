import BytecodePatch.Proofs.Code.Editing
import BytecodePatch.Proofs.Patch.Continuity
import BytecodePatch.Proofs.Run.Action

/-!
# Handles along a run

Between any two moments of a run, handles that are answered are new, removed handles stay
removed, and handles that are live at both moments stand in the same order under the same
opcodes. Their operands change only where an action replaces them, or moves references away
from an instruction that it names or that is removed.
-/

namespace BytecodePatch

namespace Action

/-- The handles that an action answers for the instructions it inserted. -/
def answered (code : Code) : Action → List Handle
  | append instr => answeredHandles (fun done => [done.1]) (code.append instr)
  | insertAt anchor instr => answeredHandles (fun done => [done.1]) (code.insertAt anchor instr)
  | insertBefore anchor instr =>
      answeredHandles (fun done => [done.1]) (code.insertBefore anchor instr)
  | insertAfter anchor instr =>
      answeredHandles (fun done => [done.1]) (code.insertAfter anchor instr)
  | insertBeforeAt position instr =>
      answeredHandles (fun done => [done.1]) (code.insertBeforeAt position instr)
  | insertAfterAt position instr =>
      answeredHandles (fun done => [done.1]) (code.insertAfterAt position instr)
  | emit cursor instr => answeredHandles (fun handle => [handle]) (cursor.emit code instr).1
  | emitAll cursor instrs => answeredHandles id (cursor.emitAll code instrs).handles
  | guard branch condition => answeredHandles id (Edit.guard code branch condition).1
  | replaceRange first count replacement =>
      answeredHandles id (Edit.replaceRange code first count replacement).1
  | replaceCallArgument literal replacement =>
      answeredHandles id (Edit.replaceCallArgument code literal replacement).1
  | hookAfterStore field hook => answeredHandles id (Edit.hookAfterStore code field hook).1
  | widen args locals last widening =>
      answeredHandles (·.1.conversions) (Body.widen ⟨args, locals, code⟩ last widening)
  | _ => []

/-- The handle whose branches an action is to move, if it names one. -/
def source? : Action → Option Handle
  | retarget source _ => some source
  | retargetFrom _ source _ => some source
  | emit cursor _ => cursor.pending
  | emitAll cursor _ => cursor.pending
  | _ => none

/-- The action is to replace the operand of the instruction under the handle. -/
def ReplacesOperand (code : Code) (handle : Handle) : Action → Prop
  | replaceOperand replaced _ => replaced = handle
  | replaceOperandAt position _ => code.handleAt? position = some handle
  | _ => False

end Action

namespace Code

/-- The handles that the actions of a run answer, one action after another. -/
def answered (code : Code) : List Action → List Handle
  | [] => []
  | action :: actions => action.answered code ++ (action.perform code).answered actions

/-- Some action of a run is to replace the operand of the instruction under the handle. -/
def ReplacesOperand (code : Code) (handle : Handle) : List Action → Prop
  | [] => False
  | action :: actions =>
      action.ReplacesOperand code handle ∨ (action.perform code).ReplacesOperand handle actions

/-- What becomes of handles while further actions are performed. -/
structure KeepsHandles (code : Code) (more : List Action) : Prop where
  /-- Whatever is live was issued. -/
  live : ∀ handle, code.contains handle = true → code.HasIssued handle
  issued : ∀ handle, code.HasIssued handle → (code.run more).HasIssued handle
  distinct : (code.answered more).Nodup
  fresh :
    ∀ handle ∈ code.answered more,
      ¬code.HasIssued handle ∧ (code.run more).HasIssued handle
  removed : ∀ handle, code.HasRemoved handle → (code.run more).HasRemoved handle
  kept :
    ∀ handle before after,
      code.get? handle = some before → (code.run more).get? handle = some after →
        after.opcode = before.opcode ∧
          (code.ReplacesOperand handle more ∨
            before.Moved
              (fun ref =>
                (∃ action ∈ more, action.source? = some ref) ∨ (code.run more).HasRemoved ref)
              after)
  ordered :
    ∀ first second firstPlace secondPlace firstLater secondLater,
      code.position? first = some firstPlace → code.position? second = some secondPlace →
        (code.run more).position? first = some firstLater →
          (code.run more).position? second = some secondLater →
            (firstPlace < secondPlace ↔ firstLater < secondLater)

/-! ## Order -/

variable {code result : Code}

/-- Of two live handles one comes first exactly if the handles have them in this order. -/
private theorem pair_sublist_iff
    {first second : Handle} {firstPlace secondPlace : Nat}
    (linked : code.WellLinked)
    (firstPlaced : code.position? first = some firstPlace)
    (secondPlaced : code.position? second = some secondPlace) :
    [first, second].Sublist code.handles ↔ firstPlace < secondPlace := by
  constructor
  · intro ordered
    obtain ⟨before, after, cut, inBefore, inAfter⟩ := List.cons_sublist_iff.mp ordered
    obtain ⟨early, earlyAt⟩ := List.mem_iff_getElem?.mp inBefore
    obtain ⟨late, lateAt⟩ := List.mem_iff_getElem?.mp (List.singleton_sublist.mp inAfter)
    have earlyBound := (List.getElem?_eq_some_iff.mp earlyAt).1
    have earlyPlaced : code.position? first = some early := by
      apply linked.position?_eq_some_iff.mpr
      rw [handleAt?, cut, List.getElem?_append_left earlyBound]
      exact earlyAt
    have latePlaced : code.position? second = some (before.length + late) := by
      apply linked.position?_eq_some_iff.mpr
      rw [handleAt?, cut, List.getElem?_append_right (Nat.le_add_right _ _),
        Nat.add_sub_cancel_left]
      exact lateAt
    have firstEq := Option.some.inj (firstPlaced.symm.trans earlyPlaced)
    have secondEq := Option.some.inj (secondPlaced.symm.trans latePlaced)
    omega
  · intro earlier
    have firstAt := linked.position?_eq_some_iff.mp firstPlaced
    have secondAt := linked.position?_eq_some_iff.mp secondPlaced
    refine List.cons_sublist_iff.mpr
      ⟨code.handles.take secondPlace, code.handles.drop secondPlace,
        (List.take_append_drop _ _).symm, ?_, List.singleton_sublist.mpr ?_⟩
    · apply List.mem_of_getElem? (i := firstPlace)
      rw [List.getElem?_take_of_lt earlier]
      exact firstAt
    · apply List.mem_of_getElem? (i := 0)
      rw [List.getElem?_drop, Nat.add_zero]
      exact secondAt

namespace Continues

variable {Named Replaced : Handle → Prop} {handles : List Handle} {first second : Handle}
variable {firstPlace secondPlace firstLater secondLater : Nat}

private theorem lt_of_later_lt
    (linked : code.WellLinked)
    (continued : Continues Named Replaced code handles result)
    (firstPlaced : code.position? first = some firstPlace)
    (secondPlaced : code.position? second = some secondPlace)
    (firstStays : result.position? first = some firstLater)
    (secondStays : result.position? second = some secondLater)
    (later : firstLater < secondLater) :
    firstPlace < secondPlace := by
  have early :
      ∀ {handle : Handle} {position : Nat},
        code.position? handle = some position → handle.slot < code.issued := by
    intro handle position placed
    have member := List.mem_of_getElem? (linked.position?_eq_some_iff.mp placed)
    exact (linked.hasIssued (linked.contains_iff.mpr member)).2
  have bothEarly :
      ([first, second].filter fun handle => handle.slot < code.issued) = [first, second] := by
    apply List.filter_eq_self.mpr
    simp [early firstPlaced, early secondPlaced]
  have ordered :=
    ((pair_sublist_iff continued.linked firstStays secondStays).mpr later).filter
      fun handle => handle.slot < code.issued
  rw [bothEarly] at ordered
  exact (pair_sublist_iff linked firstPlaced secondPlaced).mp (ordered.trans continued.order)

/-- Handles that are live before and after stand in one order. -/
theorem position_lt_iff
    (linked : code.WellLinked)
    (continued : Continues Named Replaced code handles result)
    (firstPlaced : code.position? first = some firstPlace)
    (secondPlaced : code.position? second = some secondPlace)
    (firstStays : result.position? first = some firstLater)
    (secondStays : result.position? second = some secondLater) :
    firstPlace < secondPlace ↔ firstLater < secondLater := by
  constructor
  · intro earlier
    rcases Nat.lt_trichotomy firstLater secondLater with before | same | after
    · exact before
    · subst same
      have firstAt := continued.linked.position?_eq_some_iff.mp firstStays
      have secondAt := continued.linked.position?_eq_some_iff.mp secondStays
      obtain rfl := Option.some.inj (firstAt.symm.trans secondAt)
      have one := Option.some.inj (firstPlaced.symm.trans secondPlaced)
      exact absurd one (Nat.ne_of_lt earlier)
    · have swapped :=
        lt_of_later_lt linked continued secondPlaced firstPlaced secondStays firstStays after
      exact absurd earlier (Nat.lt_asymm swapped)
  · exact lt_of_later_lt linked continued firstPlaced secondPlaced firstStays secondStays

end Continues

/-! ## Actions -/

namespace Continues

variable {Named Replaced : Handle → Prop}

private theorem after
    {ε α : Type} {handles : α → List Handle} {result : α → Code} {attempt : Except ε α}
    (linked : code.WellLinked)
    (continued :
      ∀ value, attempt = .ok value → Continues Named Replaced code (handles value) (result value)) :
    Continues Named Replaced code (answeredHandles handles attempt)
      (code.after result attempt) := by
  cases attempt with
  | error error => exact refl linked
  | ok value => exact continued value rfl

private theorem after_unanswered
    {ε α : Type} {result : α → Code} {attempt : Except ε α}
    (linked : code.WellLinked)
    (continued :
      ∀ value, attempt = .ok value → Continues Named Replaced code [] (result value)) :
    Continues Named Replaced code [] (code.after result attempt) := by
  cases attempt with
  | error error => exact refl linked
  | ok value => exact continued value rfl

/-- After every action the code goes on. -/
theorem perform (linked : code.WellLinked) (action : Action) :
    Continues (fun ref => action.source? = some ref)
      (fun handle => action.ReplacesOperand code handle)
      code (action.answered code) (action.perform code) := by
  cases action with
  | append instr =>
      exact after linked fun _ done => of_inserted linked (inserted_of_append linked done)
  | insertAt anchor instr =>
      refine after linked fun _ done => ?_
      obtain ⟨_, _, inserted⟩ := inserted_of_insertAt linked done
      exact of_inserted linked inserted
  | insertBefore anchor instr =>
      refine after linked fun _ done => ?_
      obtain ⟨_, _, _, _, inserted⟩ := inserted_of_insertBefore linked done
      exact of_inserted linked inserted
  | insertAfter anchor instr =>
      refine after linked fun _ done => ?_
      obtain ⟨_, _, _, _, inserted⟩ := inserted_of_insertAfter linked done
      exact of_inserted linked inserted
  | insertBeforeAt position instr =>
      refine after linked fun _ done => ?_
      exact of_inserted linked (linked.insertsAsList.insertBeforeAt _ _ _ _ done).2
  | insertAfterAt position instr =>
      refine after linked fun _ done => ?_
      exact of_inserted linked (linked.insertsAsList.insertAfterAt _ _ _ _ done).2
  | replaceOperand handle operand =>
      exact after_unanswered linked fun _ done => of_replaceOperand linked rfl done
  | replaceOperandAt position operand =>
      refine after_unanswered linked fun _ done => ?_
      obtain ⟨handle, named, replaced⟩ := bind_eq_ok_iff.mp done
      exact of_replaceOperand linked (handleAt_eq_ok_iff.mp named) replaced
  | retarget source destination => exact of_retargetFrom linked rfl rfl
  | retargetFrom branches source destination => exact of_retargetFrom linked rfl rfl
  | remove handle repair => exact of_remove linked rfl
  | removeRange first count repair => exact of_removeRange linked rfl
  | removeAt position repair => exact of_removeAt linked rfl
  | removeRangeAt position count repair => exact of_removeRangeAt linked rfl
  | emit cursor instr => exact Cursor.continues_emit linked fun _ pending => pending
  | emitAll cursor instrs =>
      exact Cursor.continues_emitAll instrs linked fun _ pending => pending
  | removeFrom cursor count repair => exact Cursor.continues_of_remove linked rfl
  | guard branch condition => exact Edit.continues_guard linked branch condition
  | replaceRange first count replacement =>
      exact Edit.continues_replaceRange linked first count replacement
  | replaceCallArgument literal replacement =>
      exact Edit.continues_replaceCallArgument linked literal replacement
  | hookAfterStore field hook => exact Edit.continues_hookAfterStore linked field hook
  | widen args locals last widening =>
      have bodyLinked : (⟨args, locals, code⟩ : Body).code.WellLinked := linked
      exact after linked fun _ done => Body.continues_of_widen bodyLinked done

/-- After every run the code goes on. -/
theorem run (linked : code.WellLinked) (actions : List Action) :
    Continues (fun ref => ∃ action ∈ actions, action.source? = some ref)
      (fun handle => code.ReplacesOperand handle actions)
      code (code.answered actions) (code.run actions) := by
  induction actions generalizing code with
  | nil => exact refl linked
  | cons action actions inductionHypothesis =>
      have performed := perform linked action
      have started :
          Continues (fun ref => ∃ other ∈ action :: actions, other.source? = some ref)
            (fun handle => code.ReplacesOperand handle (action :: actions))
            code (action.answered code) (action.perform code) :=
        performed.mono (fun _ named => ⟨action, List.mem_cons_self, named⟩)
          fun _ replaced => Or.inl replaced
      have wentOn :
          Continues (fun ref => ∃ other ∈ action :: actions, other.source? = some ref)
            (fun handle => code.ReplacesOperand handle (action :: actions))
            (action.perform code) ((action.perform code).answered actions)
            ((action.perform code).run actions) := by
        refine (inductionHypothesis performed.linked).mono ?_ fun _ replaced => Or.inr replaced
        rintro ref ⟨other, member, named⟩
        exact ⟨other, List.mem_cons_of_mem action member, named⟩
      exact started.trans linked wentOn

end Continues

/-! ## Runs -/

theorem WellLinked.keepsHandles (linked : code.WellLinked) (more : List Action) :
    code.KeepsHandles more where
  live := fun _ live => linked.hasIssued live
  issued := fun _ issued => (Continues.run linked more).hasIssued issued
  distinct := (Continues.run linked more).distinct
  fresh := (Continues.run linked more).fresh
  removed := fun _ removed => (Continues.run linked more).hasRemoved linked removed
  kept := (Continues.run linked more).kept
  ordered := fun _ _ _ _ _ _ firstPlaced secondPlaced firstStays secondStays =>
    (Continues.run linked more).position_lt_iff linked firstPlaced secondPlaced firstStays
      secondStays

end Code

/-- At every moment of a run, handles are kept through whatever follows. What a replacement of
a range inserts gets new handles, and they are issued even if the replacement is refused. -/
theorem handles_of_run
    {start : Code} (origin : Origin start) (actions : List Action) :
    (∀ more, (start.run actions).KeepsHandles more) ∧
      ∀ first count replacement handles inserted,
        count ≠ 0 →
          Edit.checkAll (start.run actions) replacement = .ok () →
            Edit.insertAllBefore first replacement (start.run actions) =
                .ok (handles, inserted) →
              ∀ handle ∈ handles,
                ¬(start.run actions).HasIssued handle ∧
                  ((Action.replaceRange first count replacement).perform
                    (start.run actions)).HasIssued handle := by
  have linked := (origin.sound.run actions).linked
  refine ⟨linked.keepsHandles, ?_⟩
  intro first count replacement handles inserted positive accepted placed
  have continued :
      Code.Continues (fun _ => False) (fun _ => False) (start.run actions) handles
        (Edit.replaceRange (start.run actions) first count replacement).2 :=
    Edit.continues_of_inserted linked positive accepted placed
  exact continued.fresh

/-- A replacement that is refused uses up slots three and four. The next instruction gets slot
five, and the branch moves on when its target is removed. -/
theorem handles_of_run_withdrawn :
    let actions : List Action :=
      [.append (.plain .nop), .append ⟨.branch, .target ⟨0, 0⟩⟩, .append (.plain .ret)]
    let more : List Action :=
      [.replaceRange ⟨0, 2⟩ 2 [.plain .dup, .plain .pop], .append (.plain .raise),
        .remove ⟨0, 0⟩ .following]
    let reached := (Code.empty 0).run actions
    let refused := (Action.replaceRange ⟨0, 2⟩ 2 [.plain .dup, .plain .pop]).perform reached
    Origin (.empty 0) ∧ refused.lines = reached.lines ∧
      (∃ inserted,
        Edit.insertAllBefore ⟨0, 2⟩ [.plain .dup, .plain .pop] reached =
            .ok ([⟨0, 3⟩, ⟨0, 4⟩], inserted) ∧
          ∀ handle ∈ ([⟨0, 3⟩, ⟨0, 4⟩] : List Handle),
            ¬reached.HasIssued handle ∧ refused.HasIssued handle) ∧
      reached.KeepsHandles more ∧ reached.answered more = [⟨0, 5⟩] ∧
      reached.get? ⟨0, 1⟩ = some ⟨.branch, .target ⟨0, 0⟩⟩ ∧
      (reached.run more).get? ⟨0, 1⟩ = some ⟨.branch, .target ⟨0, 1⟩⟩ := by
  intro actions more reached refused
  obtain ⟨kept, issued⟩ := handles_of_run (.empty 0) actions
  refine ⟨.empty 0, by decide +kernel, ⟨_, by rfl, ?_⟩, kept more, by decide +kernel, by decide +kernel,
    by decide +kernel⟩
  exact issued ⟨0, 2⟩ 2 [.plain .dup, .plain .pop] _ _ (by decide) (by rfl) (by rfl)

end BytecodePatch
