import BytecodePatch.Code.Removal
import BytecodePatch.Code.Retargeting
import BytecodePatch.Proofs.Chain.Entries

/-!
# The lines of code as a list

Every question that can be asked of well linked code is answered by its lines: which handles
are live, what stands under them, where they stand, and what comes before and after them.
Linking an instruction in, taking instructions out and changing them act on the lines as on
a plain list.
-/

namespace BytecodePatch.Code

/-- The instructions of code are in an order, which its lines show. -/
def WellLinked (code : Code) : Prop :=
  code.chain.WellLinked

theorem wellLinked_empty (tag : Nat) : (empty tag).WellLinked :=
  Chain.wellLinked_empty

@[simp]
theorem lines_empty (tag : Nat) : (empty tag).lines = [] :=
  rfl

theorem handle_comp_mapInstr (change : Instr Handle → Instr Handle) :
    Line.handle ∘ Line.mapInstr change = Line.handle :=
  rfl

/-- A change that tells an item from the others leaves it its index. -/
theorem idxOf?_map
    {α β : Type} [DecidableEq α] [DecidableEq β] {change : α → β} {items : List α} {item : α}
    (told : ∀ other ∈ items, change other = change item → other = item) :
    (items.map change).idxOf? (change item) = items.idxOf? item := by
  induction items with
  | nil => rfl
  | cons first items inductionHypothesis =>
      obtain ⟨firstTold, restTold⟩ := List.forall_mem_cons.mp told
      have same : (change first == change item) = (first == item) := by
        rw [Bool.eq_iff_iff, beq_iff_eq, beq_iff_eq]
        exact ⟨firstTold, congrArg change⟩
      rw [List.map_cons, List.idxOf?_cons, List.idxOf?_cons, same, inductionHypothesis restTold]

@[simp]
theorem handleOf_inj (code : Code) {slot other : Nat} :
    code.handleOf slot = code.handleOf other ↔ slot = other := by
  simp [handleOf]

theorem slot?_eq_some_iff (code : Code) {handle : Handle} {slot : Nat} :
    code.slot? handle = some slot ↔ handle = code.handleOf slot := by
  obtain ⟨tag, number⟩ := handle
  unfold slot? handleOf
  by_cases own : tag = code.tag
  · simp [own]
  · simp [own]

@[simp]
theorem slot?_handleOf (code : Code) (slot : Nat) :
    code.slot? (code.handleOf slot) = some slot :=
  code.slot?_eq_some_iff.mpr rfl

/-- What a handle names is in a slot of the chain. -/
theorem exists_slot_of_get?
    {code : Code} {handle : Handle} {instr : Instr Handle}
    (found : code.get? handle = some instr) :
    ∃ slot, handle = code.handleOf slot ∧ code.chain.value? slot = some instr := by
  rcases Option.bind_eq_some_iff.mp found with ⟨slot, named, held⟩
  exact ⟨slot, code.slot?_eq_some_iff.mp named, held⟩

theorem handles_eq (code : Code) :
    code.handles = (code.chain.entries.map Prod.fst).map code.handleOf := by
  simp [handles, lines, Function.comp_def]

/-- A line bears the identity of its code. -/
theorem code_eq_tag {code : Code} {line : Line} (member : line ∈ code.lines) :
    line.handle.code = code.tag := by
  obtain ⟨entry, _, rfl⟩ := List.mem_map.mp member
  rfl

theorem slot?_handle {code : Code} {line : Line} (member : line ∈ code.lines) :
    code.slot? line.handle = some line.handle.slot := by
  rw [slot?, if_pos (code_eq_tag member)]

/-- A cut of the lines is one of the entries of the chain. -/
theorem entries_of_cut
    {code : Code} {before after : List Line}
    (cut : code.lines = before ++ after) :
    ∃ left right,
      code.chain.entries = left ++ right ∧
        before = left.map (fun entry => ⟨code.handleOf entry.1, entry.2⟩) ∧
          after = right.map (fun entry => ⟨code.handleOf entry.1, entry.2⟩) := by
  obtain ⟨left, right, entriesEq, leftEq, rightEq⟩ := List.map_eq_append_iff.mp cut
  exact ⟨left, right, entriesEq, leftEq.symm, rightEq.symm⟩

theorem entries_of_middle
    {code : Code} {before after : List Line} {line : Line}
    (cut : code.lines = before ++ line :: after) :
    ∃ left right,
      code.chain.entries = left ++ (line.handle.slot, line.instr) :: right ∧
        line.handle = code.handleOf line.handle.slot ∧
          before = left.map (fun entry => ⟨code.handleOf entry.1, entry.2⟩) ∧
            after = right.map (fun entry => ⟨code.handleOf entry.1, entry.2⟩) := by
  obtain ⟨left, rest, entriesEq, beforeEq, restEq⟩ := entries_of_cut cut
  obtain ⟨entry, right, rfl, rfl, rfl⟩ := List.map_eq_cons_iff.mp restEq.symm
  exact ⟨left, right, entriesEq, rfl, beforeEq, rfl⟩

namespace WellLinked

variable {code : Code} {before after : List Line} {line : Line} {handle : Handle}

/-! ## Questions -/

theorem length_eq (linked : code.WellLinked) : code.length = code.lines.length := by
  rw [length, Chain.WellLinked.length_eq linked, lines, List.length_map]

theorem nodup_handles (linked : code.WellLinked) : code.handles.Nodup := by
  rw [handles_eq]
  exact (Chain.WellLinked.nodup_slots linked).map fun _ _ equal => code.handleOf_inj.mp equal

theorem get?_eq_some_iff (linked : code.WellLinked) {instr : Instr Handle} :
    code.get? handle = some instr ↔ ⟨handle, instr⟩ ∈ code.lines := by
  rw [get?, Option.bind_eq_some_iff, lines, List.mem_map]
  constructor
  · rintro ⟨slot, named, held⟩
    rw [code.slot?_eq_some_iff.mp named]
    exact ⟨(slot, instr), (Chain.WellLinked.mem_entries_iff linked).mpr held, rfl⟩
  · rintro ⟨⟨slot, held⟩, member, equal⟩
    cases equal
    exact ⟨slot, code.slot?_handleOf slot,
      (Chain.WellLinked.mem_entries_iff linked).mp member⟩

theorem get?_of_mem (linked : code.WellLinked) (member : line ∈ code.lines) :
    code.get? line.handle = some line.instr :=
  linked.get?_eq_some_iff.mpr member

theorem contains_iff (linked : code.WellLinked) :
    code.contains handle = true ↔ handle ∈ code.handles := by
  rw [contains, Option.isSome_iff_exists, handles, List.mem_map]
  constructor
  · rintro ⟨instr, found⟩
    exact ⟨⟨handle, instr⟩, linked.get?_eq_some_iff.mp found, rfl⟩
  · rintro ⟨line, member, rfl⟩
    exact ⟨line.instr, linked.get?_of_mem member⟩

theorem get?_of_cut (linked : code.WellLinked) (cut : code.lines = before ++ line :: after) :
    code.get? line.handle = some line.instr := by
  apply linked.get?_of_mem
  rw [cut]
  exact List.mem_append_right before List.mem_cons_self

theorem first?_eq (linked : code.WellLinked) : code.first? = code.handles.head? := by
  rw [first?, Chain.WellLinked.first_eq linked, handles_eq, List.head?_map, List.head?_map]

theorem last?_eq (linked : code.WellLinked) : code.last? = code.handles.getLast? := by
  rw [last?, Chain.WellLinked.last_eq linked, handles_eq, List.getLast?_map,
    List.getLast?_map]

theorem next?_eq
    (linked : code.WellLinked)
    (cut : code.lines = before ++ line :: after) :
    code.next? line.handle = after.head?.map Line.handle := by
  obtain ⟨left, right, entriesEq, own, rfl, rfl⟩ := entries_of_middle cut
  rw [next?, code.slot?_eq_some_iff.mpr own, Option.bind_some,
    Chain.WellLinked.next?_eq linked entriesEq]
  cases right <;> rfl

theorem previous?_eq
    (linked : code.WellLinked)
    (cut : code.lines = before ++ line :: after) :
    code.previous? line.handle = before.getLast?.map Line.handle := by
  obtain ⟨left, right, entriesEq, own, rfl, rfl⟩ := entries_of_middle cut
  rw [previous?, code.slot?_eq_some_iff.mpr own, Option.bind_some,
    Chain.WellLinked.previous?_eq linked entriesEq]
  simp [Function.comp_def]

theorem position?_eq_some_iff (linked : code.WellLinked) {position : Nat} :
    code.position? handle = some position ↔ code.handleAt? position = some handle := by
  have nodup := linked.nodup_handles
  unfold position? handleAt?
  split
  · rw [List.idxOf?_eq_some_iff]
    constructor
    · rintro ⟨bound, equal, _⟩
      exact List.getElem?_eq_some_iff.mpr ⟨bound, equal⟩
    · intro found
      obtain ⟨bound, equal⟩ := List.getElem?_eq_some_iff.mp found
      refine ⟨bound, equal, ?_⟩
      intro earlier before same
      have samePlace : earlier = position :=
        nodup.getElem_inj_iff.mp (same.trans equal.symm)
      omega
  · rename_i dead
    constructor
    · intro found
      simp at found
    · intro found
      exact absurd (linked.contains_iff.mpr (List.mem_of_getElem? found)) dead

theorem handleAt?_of_cut (cut : code.lines = before ++ line :: after) :
    code.handleAt? before.length = some line.handle := by
  simp [handleAt?, handles, cut]

theorem position?_of_cut
    (linked : code.WellLinked)
    (cut : code.lines = before ++ line :: after) :
    code.position? line.handle = some before.length :=
  linked.position?_eq_some_iff.mpr (handleAt?_of_cut cut)

/-- A live handle stands on a line. -/
theorem exists_cut (linked : code.WellLinked) (live : code.contains handle = true) :
    ∃ before line after,
      code.lines = before ++ line :: after ∧ line.handle = handle := by
  obtain ⟨line, member, handleEq⟩ := List.mem_map.mp (linked.contains_iff.mp live)
  obtain ⟨before, after, cut⟩ := List.append_of_mem member
  exact ⟨before, line, after, cut, handleEq⟩

/-- The place before a live instruction, or the end, is a cut of the lines. -/
theorem exists_cut_at
    {anchor : Option Handle}
    (linked : code.WellLinked) (live : ∀ handle ∈ anchor, code.contains handle = true) :
    ∃ before after, code.lines = before ++ after ∧ after.head?.map Line.handle = anchor := by
  cases anchor with
  | none => exact ⟨code.lines, [], (List.append_nil _).symm, rfl⟩
  | some handle =>
      obtain ⟨before, line, after, cut, rfl⟩ := linked.exists_cut (live handle rfl)
      exact ⟨before, line :: after, cut, rfl⟩

/-- The instruction that follows another one is live. -/
theorem contains_of_next?
    {following : Handle}
    (linked : code.WellLinked) (step : code.next? handle = some following) :
    code.contains following = true := by
  have live : code.contains handle = true := by
    obtain ⟨slot, linkedTo, _⟩ := Option.map_eq_some_iff.mp step
    obtain ⟨own, named, reached⟩ := Option.bind_eq_some_iff.mp linkedTo
    obtain ⟨node, found, _⟩ := Option.bind_eq_some_iff.mp reached
    have held : node.value.isSome = true := (Option.filter_eq_some_iff.mp found).2
    rw [contains, get?, named, Option.bind_some, Chain.value?, found, Option.bind_some]
    exact held
  obtain ⟨before, line, after, cut, rfl⟩ := linked.exists_cut live
  rw [linked.next?_eq cut] at step
  obtain ⟨next, head, rfl⟩ := Option.map_eq_some_iff.mp step
  rw [linked.contains_iff, handles, cut]
  exact List.mem_map_of_mem (by simp [List.mem_of_mem_head? head])

/-- What refers to a handle is live. -/
theorem contains_of_mem_referrers
    {target : Handle} (linked : code.WellLinked) (member : handle ∈ code.referrers target) :
    code.contains handle = true := by
  obtain ⟨line, lineMember, rfl⟩ := List.mem_map.mp member
  exact linked.contains_iff.mpr (List.mem_map_of_mem (List.mem_of_mem_filter lineMember))

/-- The first instruction behind a cut is live. -/
theorem contains_of_head?
    (linked : code.WellLinked) (cut : code.lines = before ++ after)
    (head : after.head?.map Line.handle = some handle) :
    code.contains handle = true := by
  obtain ⟨line, first, rfl⟩ := Option.map_eq_some_iff.mp head
  rw [linked.contains_iff, handles, cut]
  exact List.mem_map_of_mem (List.mem_append_right before (List.mem_of_mem_head? first))

/-- No other line has the handle of a line. -/
theorem ne_of_cut
    (linked : code.WellLinked)
    (cut : code.lines = before ++ line :: after)
    {other : Line} (member : other ∈ before ++ after) :
    other.handle ≠ line.handle := by
  intro same
  have nodup := linked.nodup_handles
  rw [handles, cut, List.map_append, List.map_cons] at nodup
  have fresh := (List.nodup_cons.mp (List.nodup_middle.mp nodup)).1
  rw [← List.map_append, ← same] at fresh
  exact fresh (List.mem_map_of_mem member)

/-- The next handle that is issued is on no line. -/
theorem nextHandle_not_mem (linked : code.WellLinked) : code.nextHandle ∉ code.handles := by
  rw [handles_eq]
  intro member
  obtain ⟨slot, slotMember, equal⟩ := List.mem_map.mp member
  rw [nextHandle, handleOf_inj] at equal
  subst equal
  exact (Chain.WellLinked.linked linked).issued_not_mem slotMember

end WellLinked

end BytecodePatch.Code
