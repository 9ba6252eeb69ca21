import BytecodePatch.Proofs.Flow.Blocks

/-!
# Guards and the paths through them

A guard goes in right behind its branch as a whole, or not at all. If its condition is
straight, control gets into it from the branch only, when that falls through, and goes through
all of it, to the target of the branch or to where the branch would have fallen through. So
the code with the guard has no paths other than those of the code without it, once the guard
is left out of them.
-/

namespace BytecodePatch

open Code

/-- How the paths of code with a guard compare to those of the code before. -/
structure Code.GuardRefines
    (code : Code) (branch target : Handle) (handles : List Handle) (result : Code) :
    Prop where
  paths : ∀ path, result.IsPath path → code.IsPath (path.filter (· ∉ handles))
  runs :
    ∀ earlier next later,
      result.IsPath (earlier ++ branch :: next :: later) → result.FallsThrough branch next →
        next :: later <+: handles ∨
          ∃ there rest,
            next :: later = handles ++ there :: rest ∧
              (there = target ∨ code.next? branch = some there)
  taken : ∀ last ∈ handles.getLast?, ∀ there, result.Jumps last there ↔ there = target
  untaken :
    ∀ last ∈ handles.getLast?, ∀ there,
      result.FallsThrough last there ↔ code.next? branch = some there

namespace Edit

/-- What can be guarded: a conditional branch with one target, by a condition that the code
accepts. -/
structure Guardable
    (code : Code) (branch : Handle) (condition : List (Instr Handle)) (target : Handle) :
    Prop where
  conditional :
    ∃ instr,
      code.get? branch = some instr ∧ instr.opcode.isConditionalBranch = true ∧
        instr.target? = some target
  filled : condition ≠ []
  shape : ∀ instr ∈ condition, instr.HasShape
  live : ∀ instr ∈ condition, ∀ ref ∈ instr.refs, code.contains ref = true

/-- What comes of a guard: the condition and a branch to the same target if it is false stand
behind the branch under new handles, or nothing has changed. -/
inductive GuardInsertion
    (code : Code) (branch : Handle) (condition : List (Instr Handle)) :
    Outcome → Prop where
  | done {target : Handle} {before after : List Line} {line : Line} {handles : List Handle}
      {result : Code}
      (possible : Guardable code branch condition target)
      (place : line.handle = branch)
      (cut : code.lines = before ++ line :: after)
      (length : handles.length = condition.length + 1)
      (new : ∀ handle ∈ handles, code.contains handle = false)
      (lines :
        result.lines =
          before ++ line ::
            (List.zipWith Line.mk handles (condition ++ [⟨.branchIfFalse, .target target⟩]) ++
              after))
      (refines :
        (∀ instr ∈ condition, instr.opcode.isStraight = true) →
          code.GuardRefines branch target handles result) :
      GuardInsertion code branch condition (.ok handles, result)
  | refused {error : PatchError}
      (impossible : ∀ target, ¬Guardable code branch condition target) :
      GuardInsertion code branch condition (.error error, code)

section Inserted

variable {code result : Code} {before after : List Line} {line : Line} {target : Handle}
  {condition : List (Instr Handle)} {handles others : List Handle} {last : Handle}

/-- The last of the new lines is the branch of the guard. -/
private theorem exists_last_of_inserted
    (inserted :
      InsertedAll code (before ++ [line]) after
        (condition ++ [⟨.branchIfFalse, .target target⟩]) handles result) :
    ∃ others last,
      handles = others ++ [last] ∧ others.length = condition.length ∧
        result.lines =
          before ++ line ::
            (List.zipWith Line.mk others condition ++
              ⟨last, ⟨.branchIfFalse, .target target⟩⟩ :: after) := by
  have length := inserted.length
  rw [List.length_append, List.length_singleton] at length
  rcases List.eq_nil_or_concat' handles with rfl | ⟨others, last, rfl⟩
  · exact absurd length (Nat.succ_ne_zero _).symm
  · rw [List.length_append, List.length_singleton] at length
    have sameLength : others.length = condition.length := Nat.succ.inj length
    refine ⟨others, last, rfl, sameLength, ?_⟩
    rw [inserted.lines, List.zipWith_append sameLength]
    simp

/-- From the branch of the guard, control jumps to the target or goes on behind the guard. -/
private theorem leaves_of_guard
    (linked : code.WellLinked) (resultLinked : result.WellLinked)
    (cut : code.lines = before ++ line :: after)
    (lines :
      result.lines =
        before ++ line ::
          (List.zipWith Line.mk others condition ++
            ⟨last, ⟨.branchIfFalse, .target target⟩⟩ :: after)) :
    (∀ there, result.Jumps last there ↔ there = target) ∧
      ∀ there, result.FallsThrough last there ↔ code.next? line.handle = some there := by
  have lastCut :
      result.lines =
        (before ++ line :: List.zipWith Line.mk others condition) ++
          ⟨last, ⟨.branchIfFalse, .target target⟩⟩ :: after := by
    simpa using lines
  have held : result.get? last = some ⟨.branchIfFalse, .target target⟩ :=
    resultLinked.get?_of_cut lastCut
  have nextEq : result.next? last = code.next? line.handle :=
    (resultLinked.next?_eq lastCut).trans (linked.next?_eq cut).symm
  constructor
  · intro there
    constructor
    · rintro ⟨instr, found, refMember⟩
      obtain rfl := Option.some.inj (held.symm.trans found)
      exact List.mem_singleton.mp refMember
    · rintro rfl
      exact ⟨_, held, List.mem_singleton.mpr rfl⟩
  · intro there
    rw [← nextEq]
    exact ⟨And.right, fun follows => ⟨⟨_, held, rfl⟩, follows⟩⟩

/-- A straight guard is gone through to where its branch leads. -/
private theorem leadsThrough_of_guard
    (linked : code.WellLinked) (resultLinked : result.WellLinked)
    (cut : code.lines = before ++ line :: after) (length : others.length = condition.length)
    (lines :
      result.lines =
        before ++ line ::
          (List.zipWith Line.mk others condition ++
            ⟨last, ⟨.branchIfFalse, .target target⟩⟩ :: after))
    (fits : ∀ instr ∈ condition, instr.HasShape)
    (straight : ∀ instr ∈ condition, instr.opcode.isStraight = true) :
    LeadsThrough result.Flows
      (fun there => there = target ∨ code.next? line.handle = some there)
      (others ++ [last]) := by
  obtain ⟨taken, untaken⟩ := leaves_of_guard linked resultLinked cut lines
  have ofCondition :
      ∀ other ∈ List.zipWith Line.mk others condition, other.instr ∈ condition := by
    intro other member
    rw [← map_instr_zipWith length]
    exact List.mem_map_of_mem member
  have guardCut :
      result.lines =
        (before ++ [line]) ++
          (List.zipWith Line.mk others condition ++
            ⟨last, ⟨.branchIfFalse, .target target⟩⟩ :: after) := by
    rw [lines, List.append_assoc, List.singleton_append]
  have exits :
      ∀ reached,
        result.Flows last reached →
          reached = target ∨ code.next? line.handle = some reached := by
    intro reached flows
    rcases flows with falls | jumps
    · exact Or.inr ((untaken reached).mp falls)
    · exact Or.inl ((taken reached).mp jumps)
  have through :=
    resultLinked.leadsThrough_of_isStraight guardCut
      (fun other member => fits _ (ofCondition other member))
      (fun other member => straight _ (ofCondition other member)) exits
  rw [List.map_append, map_handle_zipWith length] at through
  exact through

/-- The paths of code with a straight guard. -/
theorem guardRefines_of_inserted
    (sound : code.Sound) (cut : code.lines = before ++ line :: after)
    (conditional : line.instr.opcode.isConditionalBranch = true)
    (targeted : target ∈ line.refs)
    (inserted :
      InsertedAll code (before ++ [line]) after
        (condition ++ [⟨.branchIfFalse, .target target⟩]) handles result)
    (fits : ∀ instr ∈ condition, instr.HasShape)
    (straight : ∀ instr ∈ condition, instr.opcode.isStraight = true) :
    code.GuardRefines line.handle target handles result := by
  obtain ⟨others, last, rfl, length, lines⟩ := exists_last_of_inserted inserted
  obtain ⟨taken, untaken⟩ := leaves_of_guard sound.linked inserted.linked cut lines
  have filled : others ++ [last] ≠ [] := by
    simp
  have leads :=
    leadsThrough_of_guard sound.linked inserted.linked cut length lines fits straight
  have held := sound.linked.get?_of_cut cut
  have exits :
      ∀ there,
        (there = target ∨ code.next? line.handle = some there) →
          code.Flows line.handle there := by
    rintro there (rfl | follows)
    · exact Or.inr ⟨line.instr, held, targeted⟩
    · exact Or.inl
        ⟨⟨line.instr, held, Opcode.fallsThrough_of_isConditionalBranch conditional⟩, follows⟩
  refine ⟨?_, ?_, ?_, ?_⟩
  · intro path isPath
    exact inserted.isPath_filter sound filled leads exits isPath
  · intro earlier next later isPath falls
    have chain : (next :: later).IsChain result.Flows :=
      (List.isChain_cons.mp isPath.flows.right_of_append).2
    apply leads.prefix_or_exit chain
    rw [List.head?_cons, ← falls.2, inserted.next?_eq_head? filled]
  · intro final finalEq
    rw [List.getLast?_concat] at finalEq
    obtain rfl := Option.some.inj finalEq
    exact taken
  · intro final finalEq
    rw [List.getLast?_concat] at finalEq
    obtain rfl := Option.some.inj finalEq
    exact untaken

end Inserted

variable {code : Code} {branch target : Handle} {condition : List (Instr Handle)}
  {instr : Instr Handle}

/-- A guard whose checks are passed goes in. -/
private theorem guardInsertion_of_accepted
    (sound : code.Sound) (held : code.get? branch = some instr)
    (conditional : instr.opcode.isConditionalBranch = true)
    (targeted : instr.target? = some target) (filled : condition ≠ [])
    (accepted :
      ∀ other ∈ condition ++ [⟨.branchIfFalse, .target target⟩], code.check other = .ok ()) :
    let emission :=
      (Cursor.fresh (code.next? branch)).emitAll code
        (condition ++ [⟨.branchIfFalse, .target target⟩])
    GuardInsertion code branch condition (emission.handles, emission.code) := by
  have live : code.contains branch = true := Option.isSome_iff_exists.mpr ⟨instr, held⟩
  obtain ⟨before, line, after, cut, rfl⟩ := sound.linked.exists_cut live
  obtain rfl := Option.some.inj ((sound.linked.get?_of_cut cut).symm.trans held)
  have behind : code.lines = (before ++ [line]) ++ after := by
    rw [cut, List.append_assoc, List.singleton_append]
  have place :
      (Cursor.fresh (code.next? line.handle)).next = after.head?.map Line.handle :=
    sound.linked.next?_eq cut
  obtain ⟨handles, result, emitted, inserted⟩ :=
    Cursor.exists_insertedAll sound.linked behind place rfl accepted
  have fits : ∀ other ∈ condition, other.HasShape := fun other member =>
    (check_eq_ok_iff.mp (accepted other (List.mem_append_left _ member))).1
  have refsLive : ∀ other ∈ condition, ∀ ref ∈ other.refs, code.contains ref = true :=
    fun other member => (check_eq_ok_iff.mp (accepted other (List.mem_append_left _ member))).2
  dsimp only
  rw [emitted]
  refine .done ⟨⟨line.instr, held, conditional, targeted⟩, filled, fits, refsLive⟩ rfl cut
    ?_ ?_ ?_ ?_
  · rw [inserted.length, List.length_append, List.length_singleton]
  · exact fun _ member => inserted.contains_eq_false sound.linked member
  · rw [inserted.lines]
    simp
  · exact guardRefines_of_inserted sound cut conditional
      (Instr.mem_refs_of_target? targeted) inserted fits

/-- Every guard of a branch in sound code is put in, or refused with no effect. -/
theorem guardInsertion
    (sound : code.Sound) (branch : Handle) (condition : List (Instr Handle)) :
    GuardInsertion code branch condition (guard code branch condition) := by
  unfold guard
  split
  · rename_i rejection refused
    refine .refused fun target possible => ?_
    obtain ⟨instr, held, _⟩ := possible.conditional
    cases refused.symm.trans (get_eq_ok_iff.mpr held)
  · rename_i instr found
    have held := get_eq_ok_iff.mp found
    split
    · rename_i untargeted
      refine .refused fun target possible => ?_
      obtain ⟨other, otherHeld, conditional, targeted⟩ := possible.conditional
      obtain rfl := Option.some.inj (held.symm.trans otherHeld)
      rw [targeted, Option.filter_some, if_pos conditional] at untargeted
      cases untargeted
    · rename_i target filtered
      obtain ⟨targeted, conditional⟩ := Option.filter_eq_some_iff.mp filtered
      split
      · rename_i empty
        exact .refused fun _ possible => possible.filled (List.isEmpty_iff.mp empty)
      · rename_i filled
        dsimp only
        split
        · rename_i rejection refused
          refine .refused fun _ possible => ?_
          have targetLive : target ∈ code.handles :=
            sound.live _ (sound.linked.get?_eq_some_iff.mp held) target
              (Instr.mem_refs_of_target? targeted)
          have accepted :
              ∀ other ∈ condition ++ [⟨.branchIfFalse, .target target⟩],
                code.check other = .ok () := by
            intro other member
            rcases List.mem_append.mp member with given | last
            · exact check_eq_ok_iff.mpr ⟨possible.shape other given, possible.live other given⟩
            · obtain rfl := List.mem_singleton.mp last
              refine check_eq_ok_iff.mpr ⟨rfl, fun ref refMember => ?_⟩
              obtain rfl := List.mem_singleton.mp refMember
              exact sound.linked.contains_iff.mpr targetLive
          cases refused.symm.trans (checkAll_eq_ok_iff.mpr accepted)
        · rename_i accepted
          exact guardInsertion_of_accepted sound held conditional targeted
            (fun empty => filled (List.isEmpty_iff.mpr empty)) (checkAll_eq_ok_iff.mp accepted)

end Edit

end BytecodePatch
