import BytecodePatch.Proofs.Flow.Blocks
import BytecodePatch.Proofs.Search.Landing

/-!
# Hooks behind stores

A hook goes in right behind the first store to its field. Control goes from the store to the
hook and through it to where it went from the store before, and nothing else leads into it.
So the paths of the code with the hook are those of the code without it.
-/

namespace BytecodePatch

open Code

namespace Edit

/-- The instruction that stores to a field. -/
def storeTo (field : Symbol) : Instr Handle :=
  ⟨.storeField, .symbol field⟩

/-- The instructions that call a hook with the receiver. -/
def hookCall (hook : Symbol) : List (Instr Handle) :=
  [⟨.loadArg, .argument 0⟩, ⟨.call, .symbol hook⟩]

/-- The first line that stores to a field. -/
structure FirstStore
    (code : Code) (field : Symbol) (before : List Line) (line : Line) (after : List Line) :
    Prop where
  cut : code.lines = before ++ line :: after
  store : line.instr = storeTo field
  earliest : ∀ earlier ∈ before, earlier.instr ≠ storeTo field

/-- The error of a hook that finds no store. -/
def noStore (field : Symbol) : PatchError :=
  .patternNotFound (Pattern.text [.symbol .storeField field]) .forward none

/-- What comes of a hook: its call stands behind the first store to the field, under new handles
and on all paths through the store, or there is no store to the field. -/
inductive HookInsertion (code : Code) (field hook : Symbol) : Outcome → Prop where
  | done {before after : List Line} {line : Line} {first second : Handle} {result : Code}
      (place : FirstStore code field before line after)
      (new : ∀ handle ∈ [first, second], code.contains handle = false)
      (different : first ≠ second)
      (lines :
        result.lines =
          before ++ line :: ⟨first, ⟨.loadArg, .argument 0⟩⟩ ::
            ⟨second, ⟨.call, .symbol hook⟩⟩ :: after)
      (paths : code.SamePathsWithout [first, second] result) :
      HookInsertion code field hook (.ok [first, second], result)
  | refused
      (absent : ∀ line ∈ code.lines, line.instr ≠ storeTo field) :
      HookInsertion code field hook (.error (noStore field), code)

variable {code : Code} {field hook : Symbol} {start : Nat}

/-! ## The first store -/

theorem accepts_store_iff {instr : Instr Handle} :
    (Matcher.symbol .storeField field).accepts instr = true ↔ instr = storeTo field := by
  obtain ⟨opcode, operand⟩ := instr
  cases operand <;> simp [Matcher.accepts, Instr.symbol?, storeTo]

/-- A search from the start is offered every store to the field. -/
private theorem offers_store_iff :
    code.Offers [.symbol .storeField field] none start ↔
      ∃ line, code.lines[start]? = some line ∧ line.instr = storeTo field := by
  constructor
  · rintro ⟨matched, _⟩
    obtain ⟨line, found, accepted⟩ := matched 0 _ rfl
    exact ⟨line, found, accepts_store_iff.mp accepted⟩
  · rintro ⟨line, found, store⟩
    refine ⟨Pattern.matchesFrom_cons_iff.mpr ⟨?_, ?_⟩, ?_⟩
    · exact ⟨line, found, accepts_store_iff.mpr store⟩
    · intro offset matcher missing
      cases missing
    · exact handleAt?_ne_none (List.getElem?_eq_some_iff.mp found).1

/-- The search for a store comes to the first one and leaves the cursor behind it, or there is
no store. -/
private theorem search_store (linked : code.WellLinked) (field : Symbol) :
    let search :=
      (Cursor.atStart code).findOrFail code .forward .after [.symbol .storeField field]
        Pattern.text
    (∃ before line after,
      FirstStore code field before line after ∧
        ∃ window cursor,
          search = .ok (window, cursor) ∧ cursor.next = after.head?.map Line.handle ∧
            cursor.pending = none) ∨
      (∀ line ∈ code.lines, line.instr ≠ storeTo field) ∧ search = .error (noStore field) := by
  obtain ⟨answer, answered, search⟩ :=
    Cursor.exists_search .forward .after linked (Cursor.standsAt_atStart linked)
      (List.cons_ne_nil (Matcher.symbol .storeField field) [])
  cases search with
  | @found start landed nearest lands =>
      obtain ⟨line, found, store⟩ := offers_store_iff.mp nearest.offers
      obtain ⟨inside, lineEq⟩ := List.getElem?_eq_some_iff.mp found
      have cut :
          code.lines = code.lines.take start ++ line :: code.lines.drop (start + 1) := by
        rw [← lineEq, ← List.drop_eq_getElem_cons inside, List.take_append_drop]
      have earliest : ∀ earlier ∈ code.lines.take start, earlier.instr ≠ storeTo field := by
        intro earlier member same
        obtain ⟨place, bound, placed⟩ := List.mem_take_iff_getElem.mp member
        have offered : code.Offers [.symbol .storeField field] none place :=
          offers_store_iff.mpr ⟨earlier, List.getElem?_eq_some_iff.mpr ⟨_, placed⟩, same⟩
        have later : start ≤ place := nearest.nearest place offered (Nat.zero_le place)
        omega
      refine Or.inl ⟨_, line, _, ⟨cut, store, earliest⟩, code.window start 1, landed, ?_, ?_,
        lands.pending⟩
      · exact bind_eq_ok_iff.mpr ⟨_, answered, rfl⟩
      · rw [lands.stands.next, handleAt?_eq_head?]
        rfl
  | missed nothing =>
      refine Or.inr ⟨?_, ?_⟩
      · intro line member store
        obtain ⟨place, found⟩ := List.mem_iff_getElem?.mp member
        exact nothing place (Nat.zero_le place) (offers_store_iff.mpr ⟨line, found, store⟩)
      · rw [Cursor.findOrFail, answered]
        rfl

/-! ## The hook -/

/-- The call of a hook goes in behind a store, and all paths through the store go through it. -/
private theorem hookInsertion_of_firstStore
    {before after : List Line} {line : Line} {cursor : Cursor}
    (sound : code.Sound) (place : FirstStore code field before line after)
    (stands : cursor.next = after.head?.map Line.handle) (settled : cursor.pending = none)
    (hook : Symbol) :
    let emission := cursor.emitAll code (hookCall hook)
    HookInsertion code field hook (emission.handles, emission.code) := by
  have behind : code.lines = (before ++ [line]) ++ after := by
    rw [place.cut, List.append_assoc, List.singleton_append]
  have accepted : ∀ instr ∈ hookCall hook, code.check instr = .ok () := by
    simp only [hookCall, List.forall_mem_cons]
    exact ⟨rfl, rfl, List.forall_mem_nil _⟩
  have straight : ∀ instr ∈ hookCall hook, instr.opcode.isStraight = true := by
    simp only [hookCall, List.forall_mem_cons]
    exact ⟨rfl, rfl, List.forall_mem_nil _⟩
  have storeStraight : line.instr.opcode.isStraight = true := by
    rw [place.store]
    rfl
  obtain ⟨handles, result, emitted, inserted⟩ :=
    Cursor.exists_insertedAll sound.linked behind stands settled accepted
  have paths : code.SamePathsWithout handles result :=
    inserted.samePathsWithout sound place.cut (List.cons_ne_nil _ _) storeStraight
      (fun instr member => (check_eq_ok_iff.mp (accepted instr member)).1) straight
  obtain ⟨first, second, rfl⟩ : ∃ first second, handles = [first, second] :=
    List.length_eq_two.mp inserted.length
  dsimp only
  rw [emitted]
  refine .done place ?_ ?_ ?_ paths
  · exact fun _ member => inserted.contains_eq_false sound.linked member
  · simpa using inserted.nodup
  · rw [inserted.lines, hookCall]
    simp

/-- Every hook goes in behind the first store to its field, or is refused for want of one. -/
theorem hookInsertion (sound : code.Sound) (field hook : Symbol) :
    HookInsertion code field hook (hookAfterStore code field hook) := by
  unfold hookAfterStore
  dsimp only
  rcases search_store sound.linked field with
    ⟨before, line, after, place, window, cursor, found, stands, settled⟩ | ⟨absent, missed⟩
  · rw [found]
    exact hookInsertion_of_firstStore sound place stands settled hook
  · rw [missed]
    exact .refused absent

end Edit

end BytecodePatch
