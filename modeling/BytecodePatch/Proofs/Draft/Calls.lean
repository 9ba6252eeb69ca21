import BytecodePatch.Code.Draft
import Mathlib.Data.List.Induction
import Mathlib.Data.List.Nodup

/-!
# What a draft keeps of the calls on it

A draft comes about by calls: labels are marked, entries are added, and in between it may be
assembled. It keeps the entries in their order, the place of the last mark of each label, and
the first label that was marked again since the last assembly. That is all that it keeps, and
it is said here of the calls alone.
-/

namespace BytecodePatch

/-- A call on a draft. -/
inductive Draft.Call where
  | mark (label : String)
  | push (instr : Instr Handle)
  | branch (opcode : Opcode) (label : String)
  | switch (labels : List String)
  | assemble (tag : Nat)

namespace Draft

/-- The draft after a call. -/
def perform (draft : Draft) : Call → Draft
  | .mark label => draft.mark label
  | .push instr => draft.push instr
  | .branch opcode label => draft.branch opcode label
  | .switch labels => draft.switch labels
  | .assemble tag => (draft.assemble tag).2

/-- The draft that calls make of an empty one. -/
def ofCalls (calls : List Call) : Draft :=
  calls.foldl perform empty

/-! ## What calls say -/

/-- The entry that a call adds. -/
def Call.entry? : Call → Option Entry
  | .push instr => some (.instr instr)
  | .branch opcode label => some (.branch opcode label)
  | .switch labels => some (.switch labels)
  | .mark _ => none
  | .assemble _ => none

/-- The label that a call marks. -/
def Call.label? : Call → Option String
  | .mark label => some label
  | _ => none

def entriesOf (calls : List Call) : List Entry :=
  calls.filterMap Call.entry?

/-- The last mark of a label stands behind that many entries. -/
def Placed (calls : List Call) (label : String) (index : Nat) : Prop :=
  ∃ before after,
    calls = before ++ .mark label :: after ∧ .mark label ∉ after ∧
      (entriesOf before).length = index

/-- Behind the calls `before`, a label is marked that had been marked among them, and nothing
is assembled from there on. -/
def MarkedAgainBehind (calls before : List Call) (label : String) : Prop :=
  ∃ after,
    calls = before ++ .mark label :: after ∧ .mark label ∈ before ∧
      ∀ tag, .assemble tag ∉ after

/-- A label was marked again since the last assembly. -/
def MarkedAgain (calls : List Call) (label : String) : Prop :=
  ∃ before, MarkedAgainBehind calls before label

/-- Of the labels that were marked again since the last assembly, this one was the first. -/
def FirstMarkedAgain (calls : List Call) (label : String) : Prop :=
  ∃ before, MarkedAgainBehind calls before label ∧ ∀ other, ¬MarkedAgain before other

/-! ## One more call -/

section Snoc

variable {calls before after : List Call} {call last : Call} {label : String} {index : Nat}

theorem entriesOf_append (first second : List Call) :
    entriesOf (first ++ second) = entriesOf first ++ entriesOf second :=
  List.filterMap_append

/-- A call is the last one, or stands before it. -/
theorem snoc_eq_cut (cut : calls ++ [last] = before ++ call :: after) :
    (before = calls ∧ call = last ∧ after = []) ∨
      ∃ rest, after = rest ++ [last] ∧ calls = before ++ call :: rest := by
  rcases List.eq_nil_or_concat after with rfl | ⟨rest, final, rfl⟩
  · obtain ⟨rfl, sameLast⟩ := List.append_inj' cut rfl
    exact Or.inl ⟨rfl, (List.cons.inj sameLast).1.symm, rfl⟩
  · have regrouped : calls ++ [last] = (before ++ call :: rest) ++ [final] := by
      rw [cut, List.concat_eq_append, List.append_assoc, List.cons_append]
    obtain ⟨rfl, sameLast⟩ := List.append_inj' regrouped rfl
    obtain rfl := (List.cons.inj sameLast).1
    exact Or.inr ⟨rest, List.concat_eq_append, rfl⟩

theorem placed_snoc_mark :
    Placed (calls ++ [.mark label]) label index ↔ (entriesOf calls).length = index := by
  constructor
  · intro placed
    obtain ⟨before, after, cut, unmarked, length⟩ := placed
    rcases snoc_eq_cut cut with ⟨rfl, _, _⟩ | ⟨rest, rfl, _⟩
    · exact length
    · exact absurd (List.mem_append_right rest List.mem_cons_self) unmarked
  · intro length
    exact ⟨calls, [], rfl, List.not_mem_nil, length⟩

theorem placed_snoc_of_ne (other : last ≠ .mark label) :
    Placed (calls ++ [last]) label index ↔ Placed calls label index := by
  constructor
  · intro placed
    obtain ⟨before, after, cut, unmarked, length⟩ := placed
    rcases snoc_eq_cut cut with ⟨_, same, _⟩ | ⟨rest, rfl, rfl⟩
    · exact absurd same.symm other
    · exact ⟨before, rest, rfl, fun member => unmarked (List.mem_append_left _ member), length⟩
  · intro placed
    obtain ⟨before, after, rfl, unmarked, length⟩ := placed
    refine ⟨before, after ++ [last], by rw [List.append_assoc, List.cons_append], ?_, length⟩
    rw [List.mem_append, List.mem_singleton, not_or]
    exact ⟨unmarked, other.symm⟩

theorem markedAgainBehind_snoc_iff :
    MarkedAgainBehind (calls ++ [last]) before label ↔
      (∀ tag, last ≠ .assemble tag) ∧
        (MarkedAgainBehind calls before label ∨
          before = calls ∧ last = .mark label ∧ .mark label ∈ calls) := by
  constructor
  · intro again
    obtain ⟨after, cut, marked, unassembled⟩ := again
    rcases snoc_eq_cut cut with ⟨rfl, rfl, rfl⟩ | ⟨rest, rfl, rfl⟩
    · exact ⟨fun _ => Call.noConfusion, Or.inr ⟨rfl, rfl, marked⟩⟩
    · refine ⟨?_, Or.inl ⟨rest, rfl, marked, ?_⟩⟩
      · intro tag same
        subst same
        exact unassembled tag (List.mem_append_right rest List.mem_cons_self)
      · exact fun tag member => unassembled tag (List.mem_append_left _ member)
  · intro again
    obtain ⟨unassembled, ⟨after, rfl, marked, clear⟩ | ⟨rfl, rfl, marked⟩⟩ := again
    · refine ⟨after ++ [last], by rw [List.append_assoc, List.cons_append], marked, ?_⟩
      intro tag
      rw [List.mem_append, List.mem_singleton, not_or]
      exact ⟨clear tag, (unassembled tag).symm⟩
    · exact ⟨[], rfl, marked, fun _ => List.not_mem_nil⟩

theorem markedAgain_snoc_iff :
    MarkedAgain (calls ++ [last]) label ↔
      (∀ tag, last ≠ .assemble tag) ∧
        (MarkedAgain calls label ∨ last = .mark label ∧ .mark label ∈ calls) := by
  simp only [MarkedAgain, markedAgainBehind_snoc_iff, exists_and_left, exists_or,
    exists_eq_left]

theorem firstMarkedAgain_snoc_iff :
    FirstMarkedAgain (calls ++ [last]) label ↔
      (∀ tag, last ≠ .assemble tag) ∧
        (FirstMarkedAgain calls label ∨
          last = .mark label ∧ .mark label ∈ calls ∧ ∀ other, ¬MarkedAgain calls other) := by
  simp only [FirstMarkedAgain, markedAgainBehind_snoc_iff, and_assoc, exists_and_left, or_and_right,
    exists_or, exists_eq_left]

/-- A label that is marked has a last mark. -/
theorem exists_placed_iff : (∃ index, Placed calls label index) ↔ .mark label ∈ calls := by
  constructor
  · intro placed
    obtain ⟨_, before, after, rfl, _⟩ := placed
    exact List.mem_append_right before List.mem_cons_self
  · intro member
    obtain ⟨after, before, cut, unmarked⟩ :=
      List.eq_append_cons_of_mem (List.mem_reverse.mpr member)
    refine ⟨_, before.reverse, after.reverse, ?_, ?_, rfl⟩
    · rw [← calls.reverse_reverse, cut, List.reverse_append, List.reverse_cons,
        List.append_assoc, List.singleton_append]
    · rwa [List.mem_reverse]

end Snoc

/-! ## Marks -/

section Marks

variable {marks : List (String × Nat)} {label : String} {index : Nat}

theorem lookup_setMark (other : String) :
    (setMark label index marks).lookup other =
      if other = label then some index else marks.lookup other := by
  induction marks with
  | nil =>
      rw [setMark, List.lookup_cons, List.lookup_nil]
      by_cases same : other = label
      · simp [same]
      · simp [beq_eq_false_iff_ne.mpr same, same]
  | cons mark marks inductionHypothesis =>
      obtain ⟨first, place⟩ := mark
      rw [setMark]
      by_cases found : first = label
      · subst found
        rw [if_pos rfl, List.lookup_cons, List.lookup_cons]
        by_cases same : other = first
        · simp [same]
        · simp [beq_eq_false_iff_ne.mpr same, same]
      · rw [if_neg found, List.lookup_cons, List.lookup_cons, inductionHypothesis]
        by_cases same : other = first
        · simp [same, found]
        · simp [beq_eq_false_iff_ne.mpr same]

/-- Setting a mark adds its label to the labels if it is new. -/
theorem labels_setMark :
    (setMark label index marks).map Prod.fst =
      if label ∈ marks.map Prod.fst then marks.map Prod.fst
      else marks.map Prod.fst ++ [label] := by
  induction marks with
  | nil => rfl
  | cons mark marks inductionHypothesis =>
      obtain ⟨first, place⟩ := mark
      rw [setMark, List.map_cons]
      by_cases found : first = label
      · subst found
        simp
      · rw [if_neg found, List.map_cons, inductionHypothesis]
        by_cases member : label ∈ marks.map Prod.fst
        · rw [if_pos member, if_pos (List.mem_cons_of_mem _ member)]
        · rw [if_neg member, if_neg]
          · rfl
          · rw [List.mem_cons, not_or]
            exact ⟨Ne.symm found, member⟩

theorem nodup_setMark (distinct : (marks.map Prod.fst).Nodup) :
    ((setMark label index marks).map Prod.fst).Nodup := by
  rw [labels_setMark]
  split
  · exact distinct
  · rename_i fresh
    rw [← List.concat_eq_append]
    exact (List.nodup_concat ..).mpr ⟨fresh, distinct⟩

/-- A mark records its label as a repeated one if it had a mark and none is recorded yet. -/
theorem duplicate_mark_eq_some_iff {draft : Draft} {other : String} :
    (draft.mark label).duplicate = some other ↔
      draft.duplicate = some other ∨
        other = label ∧ draft.marks.lookup label ≠ none ∧ draft.duplicate = none := by
  rw [Draft.mark]
  cases draft.marks.lookup label <;> cases draft.duplicate <;> simp [eq_comm]

theorem duplicate_mark_eq_none_iff {draft : Draft} :
    (draft.mark label).duplicate = none ↔
      draft.duplicate = none ∧ draft.marks.lookup label = none := by
  rw [Draft.mark]
  cases draft.marks.lookup label <;> cases draft.duplicate <;> simp

end Marks

/-! ## What a draft keeps -/

/-- An assembly takes back what is recorded of repeated marks, and nothing else. -/
theorem assemble_snd (draft : Draft) (tag : Nat) :
    (draft.assemble tag).2 = { draft with duplicate := none } := by
  obtain ⟨entries, marks, duplicate⟩ := draft
  cases duplicate <;> rfl

/-- A draft keeps what calls say. -/
structure Keeps (draft : Draft) (calls : List Call) : Prop where
  entries : draft.entries = entriesOf calls
  distinct : (draft.marks.map Prod.fst).Nodup
  marks : ∀ label index, draft.marks.lookup label = some index ↔ Placed calls label index
  duplicate : ∀ label, draft.duplicate = some label ↔ FirstMarkedAgain calls label
  settled : draft.duplicate = none ↔ ∀ label, ¬MarkedAgain calls label

namespace Keeps

variable {draft : Draft} {calls : List Call}

theorem start : Keeps empty [] where
  entries := rfl
  distinct := List.nodup_nil
  marks := by simp [empty, Placed]
  duplicate := by simp [empty, FirstMarkedAgain, MarkedAgainBehind]
  settled := by simp [empty, MarkedAgain, MarkedAgainBehind]

/-- A call that adds an entry marks no label and assembles nothing. -/
private theorem add
    {entry : Entry} {call : Call} (keeps : draft.Keeps calls)
    (adds : call.entry? = some entry) :
    (draft.add entry).Keeps (calls ++ [call]) := by
  have unmarked : ∀ label, call ≠ .mark label := by
    intro label same
    subst same
    cases adds
  have unassembled : ∀ tag, call ≠ .assemble tag := by
    intro tag same
    subst same
    cases adds
  constructor
  · rw [Draft.add, keeps.entries, entriesOf_append, entriesOf, entriesOf,
      List.filterMap_cons_some adds]
    rfl
  · exact keeps.distinct
  · intro label index
    rw [placed_snoc_of_ne (unmarked label)]
    exact keeps.marks label index
  · intro label
    simp only [Draft.add, keeps.duplicate label, firstMarkedAgain_snoc_iff, unmarked, ne_eq,
      unassembled, not_false_eq_true, implies_true, false_and, or_false, true_and]
  · simp only [Draft.add, keeps.settled, markedAgain_snoc_iff, unmarked, ne_eq, unassembled,
      not_false_eq_true, implies_true, false_and, or_false, true_and]

private theorem mark (keeps : draft.Keeps calls) (label : String) :
    (draft.mark label).Keeps (calls ++ [.mark label]) := by
  have seen : draft.marks.lookup label ≠ none ↔ .mark label ∈ calls := by
    rw [Option.ne_none_iff_exists', ← exists_placed_iff]
    exact exists_congr fun index => keeps.marks label index
  have unassembled : ∀ tag, Call.mark label ≠ .assemble tag := fun _ => Call.noConfusion
  constructor
  · rw [entriesOf_append]
    exact keeps.entries.trans (List.append_nil _).symm
  · exact nodup_setMark keeps.distinct
  · intro other index
    rw [Draft.mark, lookup_setMark, keeps.entries]
    by_cases same : other = label
    · subst same
      rw [if_pos rfl, placed_snoc_mark, Option.some.injEq]
    · have apart : Call.mark label ≠ .mark other := fun equal => same (Call.mark.inj equal).symm
      rw [if_neg same, placed_snoc_of_ne apart]
      exact keeps.marks other index
  · intro other
    rw [duplicate_mark_eq_some_iff, firstMarkedAgain_snoc_iff, keeps.duplicate, seen,
      keeps.settled]
    constructor
    · intro recorded
      rcases recorded with first | ⟨rfl, member, settled⟩
      · exact ⟨unassembled, Or.inl first⟩
      · exact ⟨unassembled, Or.inr ⟨rfl, member, settled⟩⟩
    · intro marked
      obtain ⟨_, first | ⟨same, member, settled⟩⟩ := marked
      · exact Or.inl first
      · obtain rfl := Call.mark.inj same
        exact Or.inr ⟨rfl, member, settled⟩
  · rw [duplicate_mark_eq_none_iff, keeps.settled, ← not_ne_iff, seen]
    simp only [markedAgain_snoc_iff, Call.mark.injEq]
    constructor
    · intro unrecorded other marked
      obtain ⟨settled, unseen⟩ := unrecorded
      obtain ⟨_, again | ⟨rfl, member⟩⟩ := marked
      · exact settled other again
      · exact unseen member
    · intro settled
      exact ⟨fun other again => settled other ⟨unassembled, Or.inl again⟩,
        fun member => settled label ⟨unassembled, Or.inr ⟨rfl, member⟩⟩⟩

private theorem assemble (keeps : draft.Keeps calls) (tag : Nat) :
    (draft.assemble tag).2.Keeps (calls ++ [.assemble tag]) := by
  rw [assemble_snd]
  constructor
  · rw [entriesOf_append]
    exact keeps.entries.trans (List.append_nil _).symm
  · exact keeps.distinct
  · intro label index
    rw [placed_snoc_of_ne Call.noConfusion]
    exact keeps.marks label index
  · simp [firstMarkedAgain_snoc_iff]
  · simp [markedAgain_snoc_iff]

/-- Whatever the next call is, the draft keeps what it says. -/
theorem perform (keeps : draft.Keeps calls) (call : Call) :
    (draft.perform call).Keeps (calls ++ [call]) := by
  cases call with
  | mark label => exact keeps.mark label
  | push instr => exact keeps.add rfl
  | branch opcode label => exact keeps.add rfl
  | switch labels => exact keeps.add rfl
  | assemble tag => exact keeps.assemble tag

end Keeps

/-- A draft that calls made keeps what they say. -/
theorem keeps_ofCalls (calls : List Call) : (ofCalls calls).Keeps calls := by
  induction calls using List.reverseRecOn with
  | nil => exact .start
  | append_singleton calls call inductionHypothesis =>
      rw [ofCalls, List.foldl_append]
      exact inductionHypothesis.perform call

end Draft

end BytecodePatch
