import BytecodePatch.Proofs.Code.Draft
import BytecodePatch.Proofs.Draft.Calls
import Mathlib.Data.List.Find
import Mathlib.Data.List.Forall2

/-!
# Labels are resolved exactly

Whether a draft can be assembled, and why it cannot, depends on its entries and marks alone and
not on the identity of the code. If it can, the instructions are the entries one by one, and
each label has become the handle of the instruction that follows its last mark. In terms of
the calls on the draft: every mark is followed by an entry, every label that is used is marked,
every operand fits its opcode, and no instruction brings references of its own, which could
only be to other code.
-/

namespace BytecodePatch.Draft

/-! ## Entries -/

namespace Entry

/-- The labels that an entry uses. -/
def labels : Entry → List String
  | .instr _ => []
  | .branch _ label => [label]
  | .switch labels => labels

/-- The references that an entry brings along. -/
def refs : Entry → List Handle
  | .instr added => added.refs
  | .branch _ _ => []
  | .switch _ => []

/-- The kind of operand that an entry will have. -/
def kind : Entry → OperandKind
  | .instr added => added.operand.kind
  | .branch _ _ => .target
  | .switch _ => .targets

def opcode : Entry → Opcode
  | .instr added => added.opcode
  | .branch opcode _ => opcode
  | .switch _ => .switch

/-- The operand of an entry fits its opcode. -/
def HasShape (entry : Entry) : Prop :=
  entry.kind = entry.opcode.operandKind

instance (entry : Entry) : Decidable entry.HasShape :=
  inferInstanceAs (Decidable (_ = _))

def misfit? (entry : Entry) : Option Rejection :=
  if entry.HasShape then none
  else some (.operandMismatch entry.opcode entry.opcode.operandKind entry.kind)

end Entry

variable (draft : Draft)

/-- What is wrong with the use of a label. -/
def unmarked? (label : String) : Option Rejection :=
  match draft.marks.lookup label with
  | some _ => none
  | none => some (.undefinedLabel label)

/-- What is wrong with an entry. -/
def fault? (entry : Entry) : Option Rejection :=
  (entry.labels.findSome? draft.unmarked?).or entry.misfit?

/-- The handle that a label becomes. -/
def handleOf (tag : Nat) (label : String) : Handle :=
  ⟨tag, (draft.marks.lookup label).getD 0⟩

/-- The instruction that an entry becomes. -/
def made (tag : Nat) : Entry → Instr Handle
  | .instr instr => instr
  | .branch opcode label => ⟨opcode, .target (draft.handleOf tag label)⟩
  | .switch labels => ⟨.switch, .targets (labels.map (draft.handleOf tag))⟩

variable {draft} {tag : Nat}

private theorem resolve_eq (label : String) :
    draft.resolve tag label =
      (draft.unmarked? label).elim (.ok (draft.handleOf tag label)) .error := by
  rw [resolve, unmarked?, handleOf]
  cases draft.marks.lookup label <;> rfl

private theorem checked_made (draft : Draft) (tag : Nat) (entry : Entry) :
    (do (draft.made tag entry).checkShape; pure (draft.made tag entry)) =
      entry.misfit?.elim (.ok (draft.made tag entry)) .error := by
  have same : (draft.made tag entry).HasShape ↔ entry.HasShape := by
    cases entry <;> rfl
  unfold Instr.checkShape Entry.misfit?
  by_cases fits : entry.HasShape
  · rw [if_pos fits, if_pos (same.mpr fits)]
    rfl
  · rw [if_neg fits, if_neg (mt same.mp fits)]
    cases entry <;> rfl

/-- An entry is refused for its fault, if there is one. -/
theorem instrOf_eq (entry : Entry) :
    draft.instrOf tag entry = (draft.fault? entry).elim (.ok (draft.made tag entry)) .error := by
  have checked := checked_made draft tag entry
  cases entry with
  | instr added => exact checked
  | branch opcode label =>
      rw [fault?, Entry.labels, List.findSome?_cons, List.findSome?_nil, instrOf]
      dsimp only
      rw [resolve_eq]
      cases draft.unmarked? label with
      | some rejection => rfl
      | none => exact checked
  | switch labels =>
      rw [fault?, Entry.labels, instrOf]
      dsimp only
      rw [funext resolve_eq, mapM_elim]
      cases labels.findSome? draft.unmarked? with
      | some rejection => rfl
      | none => exact checked

/-! ## The whole draft -/

variable (draft)

/-- A label whose last mark no entry follows. -/
def trailing? : Option Rejection :=
  (draft.marks.find? fun mark => draft.entries.length ≤ mark.2).map
    fun mark => .trailingLabel mark.1

/-- The first entry with references of its own, none of which is to the code. -/
def dangling? : Option Rejection :=
  (draft.entries.zipIdx.find? fun indexed => 0 < indexed.1.refs.length).map
    fun indexed => .danglingBranch indexed.2 indexed.1.refs.length

theorem dangling?_eq_none_iff :
    draft.dangling? = none ↔ ∀ entry ∈ draft.entries, entry.refs = [] := by
  rw [dangling?, Option.map_eq_none_iff, List.find?_eq_none]
  constructor
  · intro clear entry member
    obtain ⟨position, found⟩ := List.mem_iff_getElem?.mp member
    simpa using clear (entry, position) (List.mk_mem_zipIdx_iff_getElem?.mpr found)
  · intro unbranched indexed member
    simp [unbranched indexed.1 (List.fst_mem_of_mem_zipIdx member)]

/-- Why a draft cannot be assembled. It does not depend on the identity of the code. -/
def rejection? : Option Rejection :=
  draft.trailing?.or ((draft.entries.findSome? draft.fault?).or draft.dangling?)

variable {draft}

/-- A label that is placed within the code becomes a live handle, so that only the references
that entries brought along can dangle, and all of these do. -/
theorem dangling_made
    {entry : Entry} (member : entry ∈ draft.entries)
    (followed : ∀ mark ∈ draft.marks, mark.2 < draft.entries.length)
    (foreign : ∀ ref ∈ entry.refs, ref.code ≠ tag) :
    ((draft.made tag entry).refs.filter fun ref =>
        !(codeOf tag (draft.entries.map (draft.made tag))).contains ref) = entry.refs := by
  have live :
      ∀ label,
        (codeOf tag (draft.entries.map (draft.made tag))).contains (draft.handleOf tag label) =
          true := by
    intro label
    rw [contains_codeOf_iff, List.length_map, handleOf]
    refine ⟨rfl, ?_⟩
    cases found : draft.marks.lookup label with
    | none => exact List.length_pos_of_mem member
    | some index =>
        obtain ⟨_, _, marksEq, _⟩ := List.lookup_eq_some_iff.mp found
        exact followed (label, index) (by rw [marksEq]; simp)
  cases entry with
  | instr added =>
      apply List.filter_eq_self.mpr
      intro ref refMember
      rw [Bool.not_eq_true', Bool.eq_false_iff, Ne, contains_codeOf_iff]
      exact fun own => foreign ref refMember own.1
  | branch opcode label =>
      simp [made, Entry.refs, Instr.refs, Operand.refs, live]
  | switch labels =>
      simp [made, Entry.refs, Instr.refs, Operand.refs, live]

private theorem zipIdx_lines_codeOf (instrs : List (Instr Handle)) :
    (codeOf tag instrs).lines.zipIdx =
      instrs.zipIdx.map fun indexed => (⟨⟨tag, indexed.2⟩, indexed.1⟩, indexed.2) := by
  apply List.ext_getElem?
  intro index
  rw [lines_codeOf]
  simp only [List.getElem?_zipIdx, List.getElem?_map, Nat.zero_add, Option.map_map]
  rfl

/-- The verification reports what dangles, which is what the entries brought along. -/
theorem verify_codeOf_made
    (followed : ∀ mark ∈ draft.marks, mark.2 < draft.entries.length)
    (foreign : ∀ entry ∈ draft.entries, ∀ ref ∈ entry.refs, ref.code ≠ tag) :
    (codeOf tag (draft.entries.map (draft.made tag))).verify =
      draft.dangling?.elim (.ok ()) .error := by
  generalize codeEq : codeOf tag (draft.entries.map (draft.made tag)) = code
  have lines :
      code.lines.zipIdx =
        draft.entries.zipIdx.map fun indexed =>
          (⟨⟨tag, indexed.2⟩, draft.made tag indexed.1⟩, indexed.2) := by
    rw [← codeEq, zipIdx_lines_codeOf, List.zipIdx_map, List.map_map]
    rfl
  have dangling :
      ∀ indexed ∈ draft.entries.zipIdx,
        ((draft.made tag indexed.1).refs.filter fun ref => !code.contains ref) =
          indexed.1.refs := by
    intro indexed member
    have entryMember := List.fst_mem_of_mem_zipIdx member
    rw [← codeEq]
    exact dangling_made entryMember followed (foreign indexed.1 entryMember)
  have searched :
      ∀ {dangles : Line × Nat → Bool},
        (∀ indexed ∈ draft.entries.zipIdx,
          dangles (⟨⟨tag, indexed.2⟩, draft.made tag indexed.1⟩, indexed.2) =
            decide (0 < indexed.1.refs.length)) →
          code.lines.zipIdx.find? dangles =
            (draft.entries.zipIdx.find? fun indexed => 0 < indexed.1.refs.length).map
              fun indexed => (⟨⟨tag, indexed.2⟩, draft.made tag indexed.1⟩, indexed.2) := by
    intro dangles agree
    rw [lines, List.find?_map]
    exact congrArg _ (List.find?_congr agree)
  unfold Code.verify dangling?
  dsimp only
  rw [searched fun indexed member =>
    congrArg (fun refs : List Handle => decide (0 < refs.length)) (dangling indexed member)]
  cases found : draft.entries.zipIdx.find? fun indexed => 0 < indexed.1.refs.length with
  | none => rfl
  | some indexed =>
      have member := List.mem_of_find?_eq_some found
      simp only [Option.map_some, Option.elim_some, Line.refs, dangling indexed member]

/-- The code that a draft stands for, or why there is none. -/
theorem code_eq
    (foreign : ∀ entry ∈ draft.entries, ∀ ref ∈ entry.refs, ref.code ≠ tag) :
    draft.code tag =
      draft.rejection?.elim (.ok (codeOf tag (draft.entries.map (draft.made tag)))) .error := by
  unfold Draft.code rejection? trailing?
  cases trailing : draft.marks.find? fun mark => draft.entries.length ≤ mark.2 with
  | some mark => rfl
  | none =>
      have followed : ∀ mark ∈ draft.marks, mark.2 < draft.entries.length := by
        intro mark member
        simpa using List.find?_eq_none.mp trailing mark member
      dsimp only
      rw [funext instrOf_eq, mapM_elim]
      cases draft.entries.findSome? draft.fault? with
      | some rejection => rfl
      | none =>
          change ((codeOf tag (draft.entries.map (draft.made tag))).verify >>= fun _ => _) = _
          rw [verify_codeOf_made followed foreign]
          cases draft.dangling? <;> rfl

/-! ## In terms of the calls -/

/-- Calls after which a draft can be assembled. -/
structure Assemblable (calls : List Call) : Prop where
  followed :
    ∀ before label after, calls = before ++ .mark label :: after → entriesOf after ≠ []
  marked : ∀ entry ∈ entriesOf calls, ∀ label ∈ entry.labels, .mark label ∈ calls
  shape : ∀ entry ∈ entriesOf calls, entry.HasShape
  unbranched : ∀ entry ∈ entriesOf calls, entry.refs = []

/-- The references that calls bring along are not to the code with this identity. -/
def Foreign (tag : Nat) (calls : List Call) : Prop :=
  ∀ entry ∈ entriesOf calls, ∀ ref ∈ entry.refs, ref.code ≠ tag

instance (tag : Nat) (calls : List Call) : Decidable (Foreign tag calls) :=
  inferInstanceAs (Decidable (∀ entry ∈ entriesOf calls, ∀ ref ∈ entry.refs, ref.code ≠ tag))

/-- A label stands for the instruction behind its last mark. -/
def Resolves (calls : List Call) (code : Code) (label : String) (handle : Handle) : Prop :=
  ∃ index, Placed calls label index ∧ code.handleAt? index = some handle

/-- What an entry becomes in the code. -/
inductive Realizes (calls : List Call) (code : Code) : Entry → Instr Handle → Prop where
  | instr (instr : Instr Handle) : Realizes calls code (.instr instr) instr
  | branch {opcode : Opcode} {label : String} {handle : Handle}
      (resolved : Resolves calls code label handle) :
      Realizes calls code (.branch opcode label) ⟨opcode, .target handle⟩
  | switch {labels : List String} {handles : List Handle}
      (resolved : List.Forall₂ (Resolves calls code) labels handles) :
      Realizes calls code (.switch labels) ⟨.switch, .targets handles⟩

/-- What an assembly after the calls can give. -/
inductive Assembly (calls : List Call) (tag : Nat) : Except Rejection Code → Prop where
  | done {code : Code}
      (possible : Assemblable calls)
      (identity : code.tag = tag)
      (realized :
        List.Forall₂ (Realizes calls code) (entriesOf calls) (code.lines.map Line.instr)) :
      Assembly calls tag (.ok code)
  | refused {rejection : Rejection} (impossible : ¬Assemblable calls) :
      Assembly calls tag (.error rejection)

section Calls

variable {calls : List Call}

/-- The last marks of the labels are followed by an entry exactly if all marks are. -/
private theorem placed_lt_iff :
    (∀ label index, Placed calls label index → index < (entriesOf calls).length) ↔
      ∀ before label after, calls = before ++ .mark label :: after → entriesOf after ≠ [] := by
  constructor
  · intro followed before label after whole bare
    subst whole
    -- no entry follows the last mark of a label if none follows an earlier one
    obtain ⟨_, first, rest, cut, unmarked, _⟩ :=
      exists_placed_iff.mpr (List.mem_cons_self (a := Call.mark label) (l := after))
    have bareCut : entriesOf first = [] ∧ entriesOf (.mark label :: rest) = [] := by
      have bareMark : entriesOf (.mark label :: after) = [] := bare
      rwa [cut, entriesOf_append, List.append_eq_nil_iff] at bareMark
    have placed :
        Placed (before ++ .mark label :: after) label (entriesOf (before ++ first)).length :=
      ⟨before ++ first, rest, by rw [cut, List.append_assoc], unmarked, rfl⟩
    have bound := followed label _ placed
    rw [cut, entriesOf_append, entriesOf_append, entriesOf_append, bareCut.1, bareCut.2] at bound
    exact absurd bound (Nat.lt_irrefl _)
  · intro followed label index placed
    obtain ⟨before, after, rfl, _, rfl⟩ := placed
    have entry := List.length_pos_of_ne_nil (followed before label after rfl)
    rw [entriesOf_append, List.length_append]
    exact Nat.lt_add_of_pos_right entry

namespace Keeps

variable {draft : Draft} (keeps : draft.Keeps calls)

include keeps

theorem mem_marks_iff {label : String} {index : Nat} :
    (label, index) ∈ draft.marks ↔ Placed calls label index := by
  rw [← keeps.marks, List.lookup_eq_some_iff]
  constructor
  · intro member
    obtain ⟨before, after, cut⟩ := List.append_of_mem member
    refine ⟨before, after, cut, fun mark earlier => bne_iff_ne.mpr ?_⟩
    have distinct := keeps.distinct
    rw [cut, List.map_append, List.map_cons] at distinct
    have apart := (List.nodup_cons.mp (List.nodup_middle.mp distinct)).1
    intro same
    have named : label ∈ before.map Prod.fst := by
      rw [same]
      exact List.mem_map_of_mem earlier
    exact apart (List.mem_append_left _ named)
  · intro found
    obtain ⟨before, after, cut, _⟩ := found
    rw [cut]
    exact List.mem_append_right before List.mem_cons_self

theorem trailing?_eq_none_iff :
    draft.trailing? = none ↔
      ∀ before label after, calls = before ++ .mark label :: after → entriesOf after ≠ [] := by
  rw [trailing?, Option.map_eq_none_iff, List.find?_eq_none, ← placed_lt_iff, ← keeps.entries]
  simp [Prod.forall, keeps.mem_marks_iff]

theorem unmarked?_eq_none_iff {label : String} :
    draft.unmarked? label = none ↔ .mark label ∈ calls := by
  rw [unmarked?, ← exists_placed_iff]
  simp only [← keeps.marks]
  cases draft.marks.lookup label <;> simp

theorem fault?_eq_none_iff {entry : Entry} :
    draft.fault? entry = none ↔
      (∀ label ∈ entry.labels, .mark label ∈ calls) ∧ entry.HasShape := by
  rw [fault?, Option.or_eq_none_iff, List.findSome?_eq_none_iff, Entry.misfit?]
  simp [keeps.unmarked?_eq_none_iff]

/-- Nothing keeps a draft from being assembled exactly if the calls permit it. -/
theorem rejection?_eq_none_iff : draft.rejection? = none ↔ Assemblable calls := by
  rw [rejection?, Option.or_eq_none_iff, Option.or_eq_none_iff, keeps.trailing?_eq_none_iff,
    List.findSome?_eq_none_iff, dangling?_eq_none_iff]
  simp only [keeps.fault?_eq_none_iff, keeps.entries]
  constructor
  · intro clear
    obtain ⟨followed, faultless, unbranched⟩ := clear
    exact ⟨followed, fun entry member => (faultless entry member).1,
      fun entry member => (faultless entry member).2, unbranched⟩
  · intro possible
    exact ⟨possible.followed,
      fun entry member => ⟨possible.marked entry member, possible.shape entry member⟩,
      possible.unbranched⟩

theorem resolves_handleOf
    (possible : Assemblable calls) (tag : Nat) {label : String} (marked : .mark label ∈ calls) :
    Resolves calls (codeOf tag (draft.entries.map (draft.made tag))) label
      (draft.handleOf tag label) := by
  obtain ⟨index, placed⟩ := exists_placed_iff.mpr marked
  have bound := placed_lt_iff.mpr possible.followed label index placed
  refine ⟨index, placed, ?_⟩
  rw [handleAt?_codeOf_eq_some_iff, List.length_map, keeps.entries, handleOf,
    (keeps.marks label index).mpr placed, Option.getD_some]
  exact ⟨bound, rfl⟩

theorem realizes_made
    (possible : Assemblable calls) (tag : Nat) {entry : Entry} (member : entry ∈ entriesOf calls) :
    Realizes calls (codeOf tag (draft.entries.map (draft.made tag))) entry
      (draft.made tag entry) := by
  have marked := possible.marked entry member
  cases entry with
  | instr added => exact .instr added
  | branch opcode label =>
      exact .branch (keeps.resolves_handleOf possible tag (marked label List.mem_cons_self))
  | switch labels =>
      apply Realizes.switch
      rw [List.forall₂_map_right_iff, List.forall₂_same]
      exact fun label used => keeps.resolves_handleOf possible tag (marked label used)

/-- The code that a draft stands for is what the calls say. -/
theorem assembly {tag : Nat} (foreign : Foreign tag calls) :
    Assembly calls tag (draft.code tag) := by
  have ownForeign : ∀ entry ∈ draft.entries, ∀ ref ∈ entry.refs, ref.code ≠ tag := by
    rw [keeps.entries]
    exact foreign
  rw [code_eq ownForeign]
  cases rejected : draft.rejection? with
  | some rejection =>
      refine .refused fun possible => ?_
      rw [keeps.rejection?_eq_none_iff.mpr possible] at rejected
      cases rejected
  | none =>
      have possible := keeps.rejection?_eq_none_iff.mp rejected
      refine .done possible (tag_codeOf ..) ?_
      rw [map_instr_lines_codeOf, keeps.entries, List.forall₂_map_right_iff, List.forall₂_same]
      exact fun entry member => keeps.entries ▸ keeps.realizes_made possible tag member

end Keeps

/-- Labels that are marked once are not marked again. -/
theorem not_markedAgain_of_nodup
    (once : (calls.filterMap Call.label?).Nodup) (label : String) :
    ¬MarkedAgain calls label := by
  intro again
  obtain ⟨before, after, rfl, marked, _⟩ := again
  rw [List.filterMap_append, List.filterMap_cons_some (f := Call.label?) rfl] at once
  have apart := (List.nodup_cons.mp (List.nodup_middle.mp once)).1
  apply apart
  exact List.mem_append_left _ (List.mem_filterMap.mpr ⟨.mark label, marked, rfl⟩)

end Calls

/-- Calls that mark no label twice can be assembled exactly if every mark is followed by an
entry, every label that is used is marked, every operand fits its opcode, and no instruction
brings references along. The code then has the entries in their order, and each label stands
for the instruction behind its mark. -/
theorem assembly_of_nodup_labels
    (calls : List Call) (tag : Nat)
    (once : (calls.filterMap Call.label?).Nodup)
    (foreign : Foreign tag calls) :
    Assembly calls tag ((ofCalls calls).assemble tag).1 := by
  have keeps := keeps_ofCalls calls
  have settled := keeps.settled.mpr (not_markedAgain_of_nodup once)
  rw [assemble, settled]
  exact keeps.assembly foreign

/-- Two labels stand in front of one instruction, and a third behind all uses of it. An
instruction that refers to other code keeps the draft from being assembled. -/
theorem assembly_of_nodup_labels_crossing :
    let calls : List Call :=
      [.mark "top", .mark "again", .push (.plain .nop), .switch ["end", "top"],
        .branch .branchIfTrue "again", .mark "end", .push (.plain .ret)]
    let intruded : List Call := calls ++ [.push ⟨.branch, .target ⟨0, 0⟩⟩]
    (calls.filterMap Call.label?).Nodup ∧ Foreign 1 calls ∧
      Assembly calls 1 ((ofCalls calls).assemble 1).1 ∧
      ((ofCalls calls).assemble 1).1 =
        .ok (codeOf 1
          [.plain .nop, ⟨.switch, .targets [⟨1, 3⟩, ⟨1, 0⟩]⟩,
            ⟨.branchIfTrue, .target ⟨1, 0⟩⟩, .plain .ret]) ∧
      (intruded.filterMap Call.label?).Nodup ∧ Foreign 1 intruded ∧
      Assembly intruded 1 ((ofCalls intruded).assemble 1).1 ∧
      ((ofCalls intruded).assemble 1).1 = .error (.danglingBranch 4 1) := by
  intro calls intruded
  have once : (calls.filterMap Call.label?).Nodup := by decide
  have onceIntruded : (intruded.filterMap Call.label?).Nodup := by decide
  have foreign : Foreign 1 calls := by decide
  have foreignIntruded : Foreign 1 intruded := by decide
  exact ⟨once, foreign, assembly_of_nodup_labels calls 1 once foreign, by rfl, onceIntruded,
    foreignIntruded, assembly_of_nodup_labels intruded 1 onceIntruded foreignIntruded, by rfl⟩

end BytecodePatch.Draft
