import BytecodePatch.Proofs.Body.Tags
import BytecodePatch.Proofs.Draft.Resolution

/-!
# Assembling a draft twice

An assembly leaves the entries and the marks of a draft alone, and nothing else decides what
the next one gives, up to the identity of the code. It also takes back what is recorded of
repeated marks. So a draft is refused once for a label that was marked again, and from then on
the label stands at its last mark.
-/

namespace BytecodePatch.Draft

variable {draft : Draft}

/-! ## Code under another identity -/

private theorem mapValues_chain_foldl_link {change : Instr Handle → Instr Handle} :
    ∀ (instrs : List (Instr Handle)) {code other : Code},
      code.chain.mapValues change = other.chain →
        (instrs.foldl (fun code instr => code.link instr none) code).chain.mapValues change =
          ((instrs.map change).foldl (fun code instr => code.link instr none) other).chain
  | [], _, _, same => same
  | instr :: instrs, code, other, same => by
      have linked :
          (code.link instr none).chain.mapValues change =
            (other.link (change instr) none).chain := by
        rw [Code.link, Chain.mapValues_link, same]
        rfl
      exact mapValues_chain_foldl_link instrs linked

/-- Changing the instructions of code is making it of changed instructions. -/
theorem mapValues_chain_codeOf
    (tag other : Nat) (change : Instr Handle → Instr Handle) (instrs : List (Instr Handle)) :
    (codeOf tag instrs).chain.mapValues change = (codeOf other (instrs.map change)).chain := by
  have empty : (Code.empty tag).chain.mapValues change = (Code.empty other).chain := by
    simp [Code.empty, Chain.empty, Chain.mapValues]
  exact mapValues_chain_foldl_link instrs empty

private theorem map_made
    {entry : Entry} {tag : Nat} {replace : Handle → Handle} (unbranched : entry.refs = [])
    (own : ∀ slot, replace ⟨tag, slot⟩ = ⟨0, slot⟩) :
    (draft.made tag entry).map replace = draft.made 0 entry := by
  cases entry with
  | instr added =>
      have kept : ∀ ref ∈ added.refs, replace ref = id ref := by
        intro ref member
        have none : added.refs = [] := unbranched
        rw [none] at member
        exact absurd member List.not_mem_nil
      exact (Instr.map_congr kept).trans added.map_id
  | branch opcode label =>
      simp only [made, Instr.map, Operand.map, handleOf, own]
  | switch labels =>
      simp only [made, Instr.map, Operand.map, List.map_map]
      congr 2
      exact List.map_congr_left fun label _ => own _

/-- Code that is made of a draft is the same under every identity, apart from the identity. -/
theorem untagged_codeOf_made (tag : Nat) (unbranched : ∀ entry ∈ draft.entries, entry.refs = []) :
    (codeOf tag (draft.entries.map (draft.made tag))).untagged =
      codeOf 0 (draft.entries.map (draft.made 0)) := by
  have own :
      ∀ slot,
        (codeOf tag (draft.entries.map (draft.made tag))).untagHandle ⟨tag, slot⟩ =
          ⟨0, slot⟩ := by
    intro slot
    have ofCode := Code.untagHandle_handleOf (codeOf tag (draft.entries.map (draft.made tag))) slot
    rwa [Code.handleOf, tag_codeOf] at ofCode
  have instrs :
      (draft.entries.map (draft.made tag)).map
          (Instr.map (codeOf tag (draft.entries.map (draft.made tag))).untagHandle) =
        draft.entries.map (draft.made 0) := by
    rw [List.map_map]
    exact List.map_congr_left fun entry member => map_made (unbranched entry member) own
  have chain := mapValues_chain_codeOf tag 0
    (Instr.map (codeOf tag (draft.entries.map (draft.made tag))).untagHandle)
    (draft.entries.map (draft.made tag))
  rw [instrs] at chain
  rw [Code.untagged, Code.mapInstrs, chain]
  exact congrArg (Code.mk · _) (tag_codeOf 0 _).symm

/-- What a draft stands for does not depend on the identity, apart from the identity. -/
theorem untagged_code
    {tag : Nat} (foreign : ∀ entry ∈ draft.entries, ∀ ref ∈ entry.refs, ref.code ≠ tag) :
    (draft.code tag).map Code.untagged =
      draft.rejection?.elim (.ok (codeOf 0 (draft.entries.map (draft.made 0)))) .error := by
  rw [code_eq foreign]
  cases rejected : draft.rejection? with
  | some rejection => rfl
  | none =>
      rw [rejection?, Option.or_eq_none_iff, Option.or_eq_none_iff,
        dangling?_eq_none_iff] at rejected
      exact congrArg Except.ok (untagged_codeOf_made tag rejected.2.2)

/-! ## One assembly after another -/

/-- What two assemblies in a row can give after the calls. -/
inductive Repetition (calls : List Call) (tag : Nat) :
    Except Rejection Code → Except Rejection Code → Prop where
  | agreeing {first second : Except Rejection Code}
      (settled : ∀ label, ¬MarkedAgain calls label)
      (agrees : first.map Code.untagged = second.map Code.untagged)
      (assembly : Assembly calls tag second) :
      Repetition calls tag first second
  | reported {label : String} {second : Except Rejection Code}
      (first : FirstMarkedAgain calls label)
      (assembly : Assembly calls tag second) :
      Repetition calls tag (.error (.duplicateLabel label)) second

/-- If no label was marked again since the last assembly, the next two agree up to the
identity of the code. Otherwise the first one reports such a label, and the second one depends
on the entries and the last marks alone. -/
theorem repetition_of_calls
    (calls : List Call) (first second : Nat)
    (firstForeign : Foreign first calls) (secondForeign : Foreign second calls) :
    Repetition calls second ((ofCalls calls).assemble first).1
      (((ofCalls calls).assemble first).2.assemble second).1 := by
  have keeps := keeps_ofCalls calls
  have entriesForeign :
      ∀ tag, Foreign tag calls →
        ∀ entry ∈ (ofCalls calls).entries, ∀ ref ∈ entry.refs, ref.code ≠ tag := by
    intro tag foreign
    rw [keeps.entries]
    exact foreign
  have again :
      (((ofCalls calls).assemble first).2.assemble second).1 = (ofCalls calls).code second := by
    rw [assemble_snd]
    rfl
  rw [again]
  cases recorded : (ofCalls calls).duplicate with
  | some label =>
      rw [assemble, recorded]
      exact .reported ((keeps.duplicate label).mp recorded) (keeps.assembly secondForeign)
  | none =>
      rw [assemble, recorded]
      refine .agreeing (keeps.settled.mp recorded) ?_ (keeps.assembly secondForeign)
      rw [untagged_code (entriesForeign first firstForeign),
        untagged_code (entriesForeign second secondForeign)]

/-- A label is marked twice. The first assembly refuses it, and the second one gives code. -/
theorem repetition_of_calls_twice_marked :
    let calls : List Call :=
      [.mark "x", .push (.plain .nop), .mark "x", .push (.plain .ret)]
    Foreign 0 calls ∧ Foreign 1 calls ∧
      Repetition calls 1 ((ofCalls calls).assemble 0).1
        (((ofCalls calls).assemble 0).2.assemble 1).1 := by
  intro calls
  have firstForeign : Foreign 0 calls := by decide
  have secondForeign : Foreign 1 calls := by decide
  exact ⟨firstForeign, secondForeign, repetition_of_calls calls 0 1 firstForeign secondForeign⟩

/-- Two assemblies in a row may differ, and a draft with a label that is marked twice may become
code. -/
theorem not_agreeing_of_twice_marked :
    let calls : List Call :=
      [.mark "x", .push (.plain .nop), .mark "x", .push (.plain .ret)]
    ((ofCalls calls).assemble 0).1 = .error (.duplicateLabel "x") ∧
      (((ofCalls calls).assemble 0).2.assemble 1).1 = .ok (codeOf 1 [.plain .nop, .plain .ret]) ∧
      ((ofCalls calls).assemble 0).1.map Code.untagged ≠
        (((ofCalls calls).assemble 0).2.assemble 1).1.map Code.untagged := by
  refine ⟨by rfl, by rfl, ?_⟩
  intro same
  cases same

end BytecodePatch.Draft
