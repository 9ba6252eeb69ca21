import BytecodePatch.Proofs.Code.Removal

/-!
# Code that goes on

Code issues its handles in turn, so that a handle which was issued and is not live names an
instruction that was removed. Whatever an edit does, the code goes on: removed handles stay
removed, those that stay live keep their order and their opcodes, and a reference moves only
because the edit names it or because it was to an instruction that is removed. This is kept
when edits follow each other, so it is shown here for the changes that all edits are made of.
-/

namespace BytecodePatch

/-! ## Moved references -/

/-- The second instruction is the first one with references moved, each for a reason. -/
def Instr.Moved (Reason : Handle → Prop) (before after : Instr Handle) : Prop :=
  ∃ move : Handle → Handle,
    after = before.map move ∧ ∀ ref ∈ before.refs, move ref = ref ∨ Reason ref

namespace Instr.Moved

variable {Reason MoreReason : Handle → Prop} {before middle after : Instr Handle}

theorem refl (Reason : Handle → Prop) (instr : Instr Handle) : Moved Reason instr instr :=
  ⟨id, (Instr.map_id instr).symm, fun _ _ => Or.inl rfl⟩

theorem opcode_eq (moved : Moved Reason before after) : after.opcode = before.opcode := by
  obtain ⟨move, rfl, _⟩ := moved
  rfl

theorem mono
    (moved : Moved Reason before after) (reasons : ∀ ref, Reason ref → MoreReason ref) :
    Moved MoreReason before after := by
  obtain ⟨move, rfl, moves⟩ := moved
  exact ⟨move, rfl, fun ref member => (moves ref member).imp_right (reasons ref)⟩

theorem trans (first : Moved Reason before middle) (second : Moved Reason middle after) :
    Moved Reason before after := by
  obtain ⟨move, rfl, moves⟩ := first
  obtain ⟨moveOn, rfl, movesOn⟩ := second
  refine ⟨moveOn ∘ move, Instr.map_map move moveOn before, ?_⟩
  intro ref member
  rcases moves ref member with stays | reason
  · have onward := movesOn (move ref) (by
      rw [Instr.refs_map]
      exact List.mem_map_of_mem member)
    rw [stays] at onward
    rw [Function.comp_apply, stays]
    exact onward
  · exact Or.inr reason

theorem redirect
    {sources : List Handle} (destination : Handle) (instr : Instr Handle)
    (reasons : ∀ source ∈ sources, Reason source) :
    Moved Reason instr (instr.redirect sources destination) := by
  refine ⟨fun ref => if ref ∈ sources then destination else ref, rfl, ?_⟩
  intro ref _
  by_cases redirected : ref ∈ sources
  · exact Or.inr (reasons ref redirected)
  · exact Or.inl (if_neg redirected)

end Instr.Moved

namespace Code

/-! ## Issued and removed handles -/

def HasIssued (code : Code) (handle : Handle) : Prop :=
  handle.code = code.tag ∧ handle.slot < code.issued

/-- The handle was issued and is not live any more. -/
def HasRemoved (code : Code) (handle : Handle) : Prop :=
  code.HasIssued handle ∧ code.contains handle = false

variable {code middle result : Code} {handle : Handle}

theorem WellLinked.hasIssued
    (linked : code.WellLinked) (live : code.contains handle = true) :
    code.HasIssued handle := by
  have member := linked.contains_iff.mp live
  rw [handles_eq] at member
  obtain ⟨slot, slotMember, rfl⟩ := List.mem_map.mp member
  exact ⟨rfl, (Chain.WellLinked.linked linked).lt_issued slotMember⟩

/-- A handle of a range that was taken out is removed. -/
theorem hasRemoved_of_mem_range
    {before range after : List Line} {mend : Instr Handle → Instr Handle}
    (linked : code.WellLinked)
    (removed : Removed code before range after mend result)
    (inRange : handle ∈ range.map Line.handle) :
    result.HasRemoved handle := by
  have live : code.contains handle = true := by
    rw [linked.contains_iff, handles, removed.cut, List.map_append, List.map_append]
    exact List.mem_append_left _ (List.mem_append_right _ inRange)
  obtain ⟨tag, early⟩ := linked.hasIssued live
  refine ⟨⟨tag.trans removed.tag.symm, removed.issued.symm ▸ early⟩, ?_⟩
  rw [Bool.eq_false_iff]
  intro stillLive
  have member := removed.linked.contains_iff.mp stillLive
  rw [handles, removed.lines, List.map_map, handle_comp_mapInstr] at member
  obtain ⟨line, lineMember, rfl⟩ := List.mem_map.mp member
  exact not_mem_range_of_cut linked removed.cut lineMember inRange

theorem not_hasIssued_nextHandle (code : Code) : ¬code.HasIssued code.nextHandle :=
  fun issued => Nat.lt_irrefl _ issued.2

/-! ## Going on -/

/-- What code and later code have in common. `Named` are the handles whose branches were to
be moved, and `Replaced` those whose operand was to be replaced; the listed handles were
issued on the way. -/
structure Continues
    (Named Replaced : Handle → Prop) (code : Code) (handles : List Handle) (result : Code) :
    Prop where
  linked : result.WellLinked
  tag : result.tag = code.tag
  issued : code.issued ≤ result.issued
  order :
    (result.handles.filter fun handle => handle.slot < code.issued).Sublist code.handles
  kept :
    ∀ handle before after,
      code.get? handle = some before → result.get? handle = some after →
        after.opcode = before.opcode ∧
          (Replaced handle ∨
            before.Moved (fun ref => Named ref ∨ result.HasRemoved ref) after)
  distinct : handles.Nodup
  fresh : ∀ handle ∈ handles, ¬code.HasIssued handle ∧ result.HasIssued handle

namespace Continues

variable {Named Replaced MoreNamed MoreReplaced : Handle → Prop} {first second : List Handle}

theorem refl (linked : code.WellLinked) : Continues Named Replaced code [] code where
  linked := linked
  tag := rfl
  issued := Nat.le_refl _
  order := List.filter_sublist
  kept := by
    intro handle before after found foundAgain
    obtain rfl := Option.some.inj (found.symm.trans foundAgain)
    exact ⟨rfl, Or.inr (Instr.Moved.refl _ before)⟩
  distinct := List.nodup_nil
  fresh := List.forall_mem_nil _

theorem hasIssued (continued : Continues Named Replaced code first result)
    (issued : code.HasIssued handle) : result.HasIssued handle :=
  ⟨issued.1.trans continued.tag.symm, Nat.lt_of_lt_of_le issued.2 continued.issued⟩

/-- What is live and was issued before was live before. -/
theorem mem_handles
    (continued : Continues Named Replaced code first result)
    (issued : code.HasIssued handle) (member : handle ∈ result.handles) :
    handle ∈ code.handles := by
  apply continued.order.subset
  exact List.mem_filter.mpr ⟨member, decide_eq_true issued.2⟩

/-- What was removed stays removed. -/
theorem hasRemoved
    (linked : code.WellLinked) (continued : Continues Named Replaced code first result)
    (removed : code.HasRemoved handle) : result.HasRemoved handle := by
  refine ⟨continued.hasIssued removed.1, ?_⟩
  rw [Bool.eq_false_iff]
  intro live
  have member := continued.mem_handles removed.1 (continued.linked.contains_iff.mp live)
  have dead := removed.2
  rw [linked.contains_iff.mpr member] at dead
  cases dead

theorem mono
    (continued : Continues Named Replaced code first result)
    (named : ∀ handle, Named handle → MoreNamed handle)
    (replaced : ∀ handle, Replaced handle → MoreReplaced handle) :
    Continues MoreNamed MoreReplaced code first result :=
  { continued with
    kept := by
      intro handle before after found foundAfter
      obtain ⟨opcode, change⟩ := continued.kept handle before after found foundAfter
      refine ⟨opcode, change.imp (replaced handle) fun moved => ?_⟩
      exact moved.mono fun ref reason => reason.imp_left (named ref) }

theorem fewer
    (continued : Continues Named Replaced code first result) (some : second.Sublist first) :
    Continues Named Replaced code second result :=
  { continued with
    distinct := continued.distinct.sublist some
    fresh := fun handle member => continued.fresh handle (some.subset member) }

theorem trans
    (linked : code.WellLinked)
    (started : Continues Named Replaced code first middle)
    (wentOn : Continues Named Replaced middle second result) :
    Continues Named Replaced code (first ++ second) result where
  linked := wentOn.linked
  tag := wentOn.tag.trans started.tag
  issued := Nat.le_trans started.issued wentOn.issued
  order := by
    have narrowed :
        (result.handles.filter fun handle => handle.slot < code.issued) =
          (result.handles.filter fun handle => handle.slot < middle.issued).filter
            fun handle => handle.slot < code.issued := by
      rw [List.filter_filter]
      apply List.filter_congr
      intro handle _
      have wider : handle.slot < code.issued → handle.slot < middle.issued :=
        fun early => Nat.lt_of_lt_of_le early started.issued
      simpa using wider
    rw [narrowed]
    exact (wentOn.order.filter _).trans started.order
  kept := by
    intro handle before after found foundAfter
    have live : code.contains handle = true := Option.isSome_iff_exists.mpr ⟨before, found⟩
    have liveAfter : result.contains handle = true :=
      Option.isSome_iff_exists.mpr ⟨after, foundAfter⟩
    have liveBetween : middle.contains handle = true := by
      apply started.linked.contains_iff.mpr
      exact wentOn.mem_handles (started.hasIssued (linked.hasIssued live))
        (wentOn.linked.contains_iff.mp liveAfter)
    obtain ⟨between, foundBetween⟩ := Option.isSome_iff_exists.mp liveBetween
    obtain ⟨opcode, change⟩ := started.kept handle before between found foundBetween
    obtain ⟨opcodeOn, changeOn⟩ := wentOn.kept handle between after foundBetween foundAfter
    refine ⟨opcodeOn.trans opcode, ?_⟩
    rcases change with replaced | moved
    · exact Or.inl replaced
    · refine changeOn.imp_right fun movedOn => ?_
      have early := moved.mono fun ref reason =>
        reason.imp_right (wentOn.hasRemoved started.linked)
      exact early.trans movedOn
  distinct := by
    refine List.nodup_append.mpr ⟨started.distinct, wentOn.distinct, ?_⟩
    intro early earlyMember late lateMember same
    exact (wentOn.fresh late lateMember).1 (same ▸ (started.fresh early earlyMember).2)
  fresh := by
    intro handle member
    rcases List.mem_append.mp member with early | late
    · obtain ⟨fresh, issued⟩ := started.fresh handle early
      exact ⟨fresh, wentOn.hasIssued issued⟩
    · obtain ⟨fresh, issued⟩ := wentOn.fresh handle late
      exact ⟨fun issuedBefore => fresh (started.hasIssued issuedBefore), issued⟩

/-! ## The changes that edits are made of -/

variable {before after range : List Line} {instr : Instr Handle}

theorem of_inserted
    (linked : code.WellLinked)
    (inserted : Inserted code before after instr handle result) :
    Continues Named Replaced code [handle] result where
  linked := inserted.linked
  tag := inserted.tag
  issued := inserted.issued ▸ Nat.le_succ _
  order := by
    have late : ¬handle.slot < code.issued := by
      rw [inserted.handle_eq]
      exact Nat.lt_irrefl code.issued
    rw [handles, inserted.lines, List.map_append, List.map_cons, List.filter_append,
      List.filter_cons_of_neg (by simpa using late), ← List.filter_append, ← List.map_append,
      ← inserted.cut]
    exact List.filter_sublist
  kept := by
    intro other old new found foundAfter
    have member := inserted.linked.get?_eq_some_iff.mp foundAfter
    rw [inserted.lines] at member
    have apart : other ≠ handle := by
      rintro rfl
      have live : code.contains other = true := Option.isSome_iff_exists.mpr ⟨old, found⟩
      rw [inserted.handle_eq] at live
      exact linked.nextHandle_not_mem (linked.contains_iff.mp live)
    have memberBefore : ⟨other, new⟩ ∈ code.lines := by
      rw [inserted.cut]
      rcases List.mem_append.mp member with inBefore | rest
      · exact List.mem_append_left after inBefore
      · rcases List.mem_cons.mp rest with same | inAfter
        · exact absurd (congrArg Line.handle same) apart
        · exact List.mem_append_right before inAfter
    obtain rfl := Option.some.inj (found.symm.trans (linked.get?_eq_some_iff.mpr memberBefore))
    exact ⟨rfl, Or.inr (Instr.Moved.refl _ old)⟩
  distinct := List.nodup_singleton handle
  fresh := by
    intro other member
    obtain rfl := List.mem_singleton.mp member
    rw [inserted.handle_eq]
    refine ⟨not_hasIssued_nextHandle code, inserted.tag.symm, ?_⟩
    rw [inserted.issued]
    exact Nat.lt_succ_self _

/-- Changing instructions on their lines, each for a reason. -/
private theorem of_mapped
    {change : Line → Line}
    (linked : code.WellLinked) (resultLinked : result.WellLinked)
    (lines : result.lines = code.lines.map change)
    (tag : result.tag = code.tag) (issued : result.issued = code.issued)
    (sameHandle : ∀ line, (change line).handle = line.handle)
    (changed :
      ∀ line ∈ code.lines,
        (change line).instr.opcode = line.instr.opcode ∧
          (Replaced line.handle ∨
            line.instr.Moved (fun ref => Named ref ∨ result.HasRemoved ref)
              (change line).instr)) :
    Continues Named Replaced code [] result where
  linked := resultLinked
  tag := tag
  issued := Nat.le_of_eq issued.symm
  order := by
    have same : result.handles = code.handles := by
      rw [handles, lines, List.map_map]
      exact List.map_congr_left fun line _ => sameHandle line
    rw [same]
    exact List.filter_sublist
  kept := by
    intro handle old new found foundAfter
    have member := resultLinked.get?_eq_some_iff.mp foundAfter
    rw [lines] at member
    obtain ⟨line, lineMember, equal⟩ := List.mem_map.mp member
    have named : line.handle = handle := by
      rw [← sameHandle line, equal]
    have held := linked.get?_of_mem lineMember
    rw [named, found] at held
    have step := changed line lineMember
    rw [equal, named, ← Option.some.inj held] at step
    exact step
  distinct := List.nodup_nil
  fresh := List.forall_mem_nil _

theorem of_retargeted
    {branches : List Handle} {source destination : Handle}
    (linked : code.WellLinked) (named : Named source)
    (retargeted : Retargeted code branches source destination result) :
    Continues Named Replaced code [] result := by
  apply of_mapped linked retargeted.linked retargeted.lines retargeted.tag retargeted.issued
  · intro line
    split <;> rfl
  · intro line _
    split
    · have moved :
          line.instr.Moved (fun ref => Named ref ∨ result.HasRemoved ref)
            (line.instr.redirect [source] destination) := by
        apply Instr.Moved.redirect
        intro ref member
        exact Or.inl (List.mem_singleton.mp member ▸ named)
      exact ⟨rfl, Or.inr moved⟩
    · exact ⟨rfl, Or.inr (Instr.Moved.refl _ _)⟩

theorem of_replaceOperand
    {operand old : Operand Handle}
    (linked : code.WellLinked) (replaced : Replaced handle)
    (done : code.replaceOperand handle operand = .ok (old, result)) :
    Continues Named Replaced code [] result := by
  obtain ⟨instr, _, rest⟩ := bind_eq_ok_iff.mp done
  obtain ⟨⟨⟩, _, changed⟩ := bind_eq_ok_iff.mp rest
  obtain ⟨_, rfl⟩ := Prod.mk.inj (pure_eq_ok_iff.mp changed)
  apply of_mapped linked (linked.modify ..) (linked.lines_modify ..) (tag_modify ..)
    (issued_modify ..)
  · intro line
    split <;> rfl
  · intro line _
    split
    · rename_i here
      exact ⟨rfl, Or.inl (here ▸ replaced)⟩
    · exact ⟨rfl, Or.inr (Instr.Moved.refl _ _)⟩

theorem of_removed
    {mend : Instr Handle → Instr Handle}
    (linked : code.WellLinked)
    (removed : Removed code before range after mend result) :
    Continues Named Replaced code [] result where
  linked := removed.linked
  tag := removed.tag
  issued := Nat.le_of_eq removed.issued.symm
  order := by
    have around : result.handles.Sublist code.handles := by
      rw [handles, removed.lines, List.map_map, handle_comp_mapInstr, handles, removed.cut]
      refine List.Sublist.map _ (List.Sublist.append ?_ (List.Sublist.refl after))
      exact List.sublist_append_left before range
    exact List.filter_sublist.trans around
  kept := by
    intro handle old new found foundAfter
    have member := removed.linked.get?_eq_some_iff.mp foundAfter
    rw [removed.lines] at member
    obtain ⟨line, lineMember, equal⟩ := List.mem_map.mp member
    have held : code.get? line.handle = some line.instr := by
      apply linked.get?_of_mem
      rw [removed.cut]
      rcases List.mem_append.mp lineMember with inBefore | inAfter
      · exact List.mem_append_left after (List.mem_append_left range inBefore)
      · exact List.mem_append_right _ inAfter
    obtain ⟨rfl, rfl⟩ := Line.mk.inj equal
    obtain rfl := Option.some.inj (found.symm.trans held)
    have moved :
        line.instr.Moved (fun ref => Named ref ∨ result.HasRemoved ref) (mend line.instr) := by
      rcases removed.mends with ⟨rfl, _⟩ | ⟨destination, _, rfl⟩
      · exact Instr.Moved.refl _ _
      · apply Instr.Moved.redirect
        intro ref inRange
        exact Or.inr (hasRemoved_of_mem_range linked removed inRange)
    exact ⟨moved.opcode_eq, Or.inr moved⟩
  distinct := List.nodup_nil
  fresh := List.forall_mem_nil _

/-- Code goes on after a retargeting, whether it is carried out or refused. -/
theorem of_retargetFrom
    {branches : List Handle} {source destination : Handle} {answer : Except Rejection Nat}
    (linked : code.WellLinked) (named : Named source)
    (outcome : code.retargetFrom branches source destination = (answer, result)) :
    Continues Named Replaced code [] result := by
  cases answer with
  | error rejection =>
      obtain rfl := eq_of_retargetFrom_eq_error outcome
      exact refl linked
  | ok count => exact of_retargeted linked named (retargeted_of_retargetFrom linked outcome)

/-- Code goes on after a removal, whether it is carried out or refused. -/
theorem of_removeRange
    {start : Handle} {count : Nat} {repair : Repair}
    {answer : Except Rejection (List (Instr Handle))}
    (linked : code.WellLinked)
    (outcome : code.removeRange start count repair = (answer, result)) :
    Continues Named Replaced code [] result := by
  obtain ⟨_, same⟩ | ⟨_, same⟩ | ⟨_, _, _, _, _, _, _, removed, same⟩ :=
    removeRange_cases linked start count repair
  · cases same.symm.trans outcome
    exact refl linked
  · cases same.symm.trans outcome
    exact refl linked
  · cases same.symm.trans outcome
    exact of_removed linked removed

theorem of_remove
    {repair : Repair} {answer : Except Rejection (Instr Handle)}
    (linked : code.WellLinked) (outcome : code.remove handle repair = (answer, result)) :
    Continues Named Replaced code [] result := by
  have left : (code.removeRange handle 1 repair).2 = result := by
    rw [← snd_remove, outcome]
  exact of_removeRange linked (Prod.ext rfl left)

theorem of_removeAt
    {position : Nat} {repair : Repair} {answer : Except Rejection (Instr Handle)}
    (linked : code.WellLinked) (outcome : code.removeAt position repair = (answer, result)) :
    Continues Named Replaced code [] result := by
  unfold Code.removeAt at outcome
  split at outcome
  · cases outcome
    exact refl linked
  · exact of_remove linked outcome

theorem of_removeRangeAt
    {position count : Nat} {repair : Repair} {answer : Except Rejection (List (Instr Handle))}
    (linked : code.WellLinked)
    (outcome : code.removeRangeAt position count repair = (answer, result)) :
    Continues Named Replaced code [] result := by
  unfold Code.removeRangeAt at outcome
  split at outcome
  · cases outcome
    exact refl linked
  · exact of_removeRange linked outcome

end Continues

end Code

end BytecodePatch
