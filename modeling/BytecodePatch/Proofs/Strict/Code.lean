import BytecodePatch.Proofs.Code.Removal
import BytecodePatch.Proofs.Strict.Chain

/-!
# Strict edits of code

The edits of code, made of the strict operations on chains. A strict edit may be refused, as
the edit itself, and it may come to a failing access and have no result at all. On sound code
it never does, whatever the caller hands in, and is refused or carried out as the edit is.

A question that goes along the lines has a strict form as well: it goes along them strictly
before it is answered.
-/

namespace BytecodePatch

variable {ε α β : Type}

/-- A computation that may be refused, or come to a failing access and have no result. -/
abbrev Strict (ε α : Type) := ExceptT ε Option α

namespace Strict

/-- A result without a failing access. -/
def sure (result : Except ε α) : Strict ε α :=
  ExceptT.mk (some result)

/-- The value of an access, which has none if it fails. -/
def access (value : Option α) : Strict ε α :=
  ExceptT.lift value

theorem access_some (value : α) : (access (some value) : Strict ε α) = sure (.ok value) :=
  rfl

theorem run_sure (result : Except ε α) : (sure result).run = some result :=
  rfl

theorem access_run_sure (result : Except ε α) :
    (access (sure result).run : Strict β (Except ε α)) = sure (.ok result) :=
  rfl

/-- If no step has a failing access, the computation has none. -/
theorem bind_eq_sure
    {first : Except ε α} {next : α → Strict ε β} {rest : α → Except ε β}
    (later : ∀ value, first = .ok value → next value = sure (rest value)) :
    (sure first >>= next) = sure (first >>= rest) := by
  cases first with
  | error error => rfl
  | ok value => exact later value rfl

theorem sure_ok_bind (value : α) (next : α → Strict ε β) :
    (sure (.ok value) >>= next) = next value :=
  rfl

end Strict

namespace Code

open Strict

def linesStrict (code : Code) : Option (List Line) :=
  code.chain.entriesStrict.map fun entries =>
    entries.map fun (slot, instr) => ⟨code.handleOf slot, instr⟩

/-- An answer to a question that goes along the lines. -/
def along (code : Code) (answer : α) : Option α :=
  code.linesStrict.map fun _ => answer

/-- An answer to a question that goes along the lines and may be refused. -/
def asking (code : Code) (answer : Except ε α) : Strict ε α :=
  ExceptT.mk (code.along answer)

/-! ## Insertion -/

def linkStrict (code : Code) (instr : Instr Handle) (next : Option Handle) : Option Code :=
  (code.chain.linkStrict instr (next.map Handle.slot)).map fun chain => { code with chain }

def insertStrict
    (code : Code) (next : Option Handle) (instr : Instr Handle) :
    Strict Rejection (Handle × Code) := do
  sure (code.check instr)
  let result ← access (code.linkStrict instr next)
  return (code.nextHandle, result)

def insertAtStrict
    (code : Code) (anchor : Option Handle) (instr : Instr Handle) :
    Strict Rejection (Handle × Code) := do
  match anchor with
  | some anchor => sure (code.require anchor)
  | none => pure ()
  code.insertStrict anchor instr

def insertAfterStrict
    (code : Code) (anchor : Handle) (instr : Instr Handle) :
    Strict Rejection (Handle × Code) := do
  sure (code.require anchor)
  code.insertStrict (code.next? anchor) instr

def handleAtStrict (code : Code) (position : Nat) : Strict Rejection Handle :=
  code.asking (code.handleAt position)

def insertBeforeAtStrict
    (code : Code) (position : Nat) (instr : Instr Handle) :
    Strict Rejection (Handle × Code) :=
  if position = code.length then code.insertStrict none instr
  else do
    let anchor ← code.handleAtStrict position
    code.insertAtStrict (some anchor) instr

def insertAfterAtStrict
    (code : Code) (position : Nat) (instr : Instr Handle) :
    Strict Rejection (Handle × Code) := do
  let anchor ← code.handleAtStrict position
  code.insertAfterStrict anchor instr

/-! ## Changes in place -/

/-- There must be an instruction under a handle that was found live. -/
def replaceOperandStrict
    (code : Code) (handle : Handle) (operand : Operand Handle) :
    Strict Rejection (Operand Handle × Code) := do
  let instr ← sure (code.get handle)
  sure (code.check ⟨instr.opcode, operand⟩)
  let held ← access (code.chain.valueStrict handle.slot)
  return (held.operand, code.modify handle fun instr => ⟨instr.opcode, operand⟩)

def replaceOperandAtStrict
    (code : Code) (position : Nat) (operand : Operand Handle) :
    Strict Rejection (Operand Handle × Code) := do
  let handle ← code.handleAtStrict position
  code.replaceOperandStrict handle operand

/-- The slots of all branches must have been issued. -/
def redirectInStrict
    (code : Code) (branches : List Handle) (source destination : Handle) :
    Option (Nat × Code) :=
  if branches.all fun branch => branch.slot < code.issued then
    some (redirectIn source destination branches code)
  else none

def retargetFromStrict
    (code : Code) (branches : List Handle) (source destination : Handle) :
    Option (Except Rejection Nat × Code) :=
  match code.requireAll (destination :: branches) with
  | .error rejection => some (.error rejection, code)
  | .ok () => do
      let (count, result) ← code.redirectInStrict branches source destination
      return (.ok count, result)

def retargetStrict
    (code : Code) (source destination : Handle) : Option (Except Rejection Nat × Code) := do
  let branches ← code.along (code.referrers source)
  code.retargetFromStrict branches source destination

/-! ## Removal -/

/-- There must be an instruction under every handle when its turn comes. -/
def unlinkAllStrict : List Handle → Code → Option (List (Instr Handle) × Code)
  | [], code => some ([], code)
  | handle :: handles, code => do
      let (instr, chain) ← code.chain.unlinkStrict handle.slot
      let (instrs, code) ← unlinkAllStrict handles { code with chain := chain }
      return (instr :: instrs, code)

def removeRangeStrict
    (code : Code) (first : Handle) (count : Nat) (repair : Repair) :
    Option (Except Rejection (List (Instr Handle)) × Code) :=
  match code.require first with
  | .error rejection => some (.error rejection, code)
  | .ok () =>
      if count = 0 then some (.ok [], code)
      else
        match code.range? count (some first) with
        | none =>
            let last := (code.position? first).getD 0 + count - 1
            code.along (.error (.positionOutOfRange last code.length), code)
        | some (range, following) => do
            match ← code.along (code.redirectIntruding range following repair) with
            | (.error rejection, code) => return (.error rejection, code)
            | (.ok (), code) =>
                let (instrs, result) ← unlinkAllStrict range code
                return (.ok instrs, result)

/-- There must be a first one among the instructions that were removed. -/
def removeStrict
    (code : Code) (handle : Handle) (repair : Repair) :
    Option (Except Rejection (Instr Handle) × Code) := do
  match ← code.removeRangeStrict handle 1 repair with
  | (.error rejection, code) => return (.error rejection, code)
  | (.ok removed, code) =>
      let instr ← removed.head?
      return (.ok instr, code)

def removeAtStrict
    (code : Code) (position : Nat) (repair : Repair) :
    Option (Except Rejection (Instr Handle) × Code) := do
  match ← code.along (code.handleAt position) with
  | .error rejection => return (.error rejection, code)
  | .ok handle => code.removeStrict handle repair

def removeRangeAtStrict
    (code : Code) (position count : Nat) (repair : Repair) :
    Option (Except Rejection (List (Instr Handle)) × Code) := do
  match ← code.along (code.handleAt position) with
  | .error rejection => return (.error rejection, code)
  | .ok handle => code.removeRangeStrict handle count repair

/-- A live handle bears a slot that was issued. -/
theorem slot_lt_issued {code : Code} {handle : Handle} (live : code.contains handle = true) :
    handle.slot < code.issued := by
  rcases Option.isSome_iff_exists.mp live with ⟨instr, found⟩
  rcases exists_slot_of_get? found with ⟨slot, rfl, held⟩
  exact Chain.lt_issued_of_value? held

theorem replaceOperandStrict_eq (code : Code) (handle : Handle) (operand : Operand Handle) :
    code.replaceOperandStrict handle operand = sure (code.replaceOperand handle operand) := by
  apply bind_eq_sure
  intro instr found
  apply bind_eq_sure
  intro _ _
  rcases exists_slot_of_get? (get_eq_ok_iff.mp found) with ⟨slot, rfl, held⟩
  rw [Chain.valueStrict_eq, handleOf, held]
  rfl

theorem retargetFromStrict_eq
    (code : Code) (branches : List Handle) (source destination : Handle) :
    code.retargetFromStrict branches source destination =
      some (code.retargetFrom branches source destination) := by
  unfold retargetFromStrict retargetFrom
  cases passed : code.requireAll (destination :: branches) with
  | error rejection => rfl
  | ok nothing =>
      have inside : (branches.all fun branch => branch.slot < code.issued) = true := by
        rw [List.all_eq_true]
        intro branch member
        have live := requireAll_eq_ok_iff.mp passed branch (List.mem_cons_of_mem _ member)
        exact decide_eq_true (slot_lt_issued live)
      dsimp only
      rw [redirectInStrict, if_pos inside]
      rfl

/-! ## On well linked code -/

namespace WellLinked

variable {code : Code} {instr : Instr Handle}

theorem linesStrict_eq (linked : code.WellLinked) : code.linesStrict = some code.lines := by
  rw [linesStrict, Chain.WellLinked.entriesStrict_eq linked]
  rfl

theorem along_eq (linked : code.WellLinked) (answer : α) : code.along answer = some answer := by
  rw [along, linked.linesStrict_eq]
  rfl

theorem asking_eq (linked : code.WellLinked) (answer : Except ε α) :
    code.asking answer = sure answer := by
  rw [asking, linked.along_eq]
  rfl

/-- Linking in at the end or before a live instruction comes to no failing access. -/
theorem linkStrict_eq
    {next : Option Handle}
    (linked : code.WellLinked) (live : ∀ handle ∈ next, code.contains handle = true) :
    code.linkStrict instr next = some (code.link instr next) := by
  cases next with
  | none =>
      have cut : code.chain.entries = code.chain.entries ++ [] := (List.append_nil _).symm
      rw [linkStrict]
      exact congrArg (Option.map _) (Chain.WellLinked.linkStrict_eq linked instr cut)
  | some handle =>
      rcases linked.exists_cut (live handle rfl) with ⟨before, line, after, cut, rfl⟩
      rcases entries_of_middle cut with ⟨left, right, entriesEq, _⟩
      rw [linkStrict]
      exact congrArg (Option.map _) (Chain.WellLinked.linkStrict_eq linked instr entriesEq)

theorem insertStrict_eq
    {next : Option Handle}
    (linked : code.WellLinked) (live : ∀ handle ∈ next, code.contains handle = true) :
    code.insertStrict next instr = sure (code.insert next instr) := by
  apply bind_eq_sure
  intro _ _
  rw [linked.linkStrict_eq live, access_some]
  rfl

theorem insertAtStrict_eq (linked : code.WellLinked) (anchor : Option Handle) :
    code.insertAtStrict anchor instr = sure (code.insertAt anchor instr) := by
  cases anchor with
  | none => exact linked.insertStrict_eq (by simp)
  | some anchor =>
      apply bind_eq_sure
      intro _ required
      apply linked.insertStrict_eq
      rintro _ ⟨⟩
      exact require_eq_ok_iff.mp required

theorem insertAfterStrict_eq (linked : code.WellLinked) (anchor : Handle) :
    code.insertAfterStrict anchor instr = sure (code.insertAfter anchor instr) := by
  apply bind_eq_sure
  intro _ _
  apply linked.insertStrict_eq
  exact fun _ step => linked.contains_of_next? step

theorem handleAtStrict_eq (linked : code.WellLinked) (position : Nat) :
    code.handleAtStrict position = sure (code.handleAt position) :=
  linked.asking_eq _

theorem insertBeforeAtStrict_eq (linked : code.WellLinked) (position : Nat) :
    code.insertBeforeAtStrict position instr = sure (code.insertBeforeAt position instr) := by
  unfold insertBeforeAtStrict insertBeforeAt
  by_cases atEnd : position = code.length
  · rw [if_pos atEnd, if_pos atEnd]
    exact linked.insertStrict_eq (by simp)
  · rw [if_neg atEnd, if_neg atEnd, linked.handleAtStrict_eq]
    exact bind_eq_sure fun anchor _ => linked.insertAtStrict_eq (some anchor)

theorem insertAfterAtStrict_eq (linked : code.WellLinked) (position : Nat) :
    code.insertAfterAtStrict position instr = sure (code.insertAfterAt position instr) := by
  rw [insertAfterAtStrict, linked.handleAtStrict_eq]
  exact bind_eq_sure fun anchor _ => linked.insertAfterStrict_eq anchor

theorem replaceOperandAtStrict_eq
    (linked : code.WellLinked) (position : Nat) (operand : Operand Handle) :
    code.replaceOperandAtStrict position operand =
      sure (code.replaceOperandAt position operand) := by
  rw [replaceOperandAtStrict, linked.handleAtStrict_eq]
  exact bind_eq_sure fun handle _ => replaceOperandStrict_eq code handle operand

theorem retargetStrict_eq (linked : code.WellLinked) (source destination : Handle) :
    code.retargetStrict source destination = some (code.retarget source destination) := by
  rw [retargetStrict, linked.along_eq]
  exact retargetFromStrict_eq code _ source destination

/-- Every instruction of a range is there when it is taken out. -/
theorem exists_unlinkAllStrict :
    ∀ (range : List Line) {code : Code} {before after : List Line},
      code.WellLinked →
        code.lines = before ++ range ++ after →
          ∃ instrs result,
            unlinkAll (range.map Line.handle) code = (.ok instrs, result) ∧
              unlinkAllStrict (range.map Line.handle) code = some (instrs, result)
  | [], code, _, _, _, _ => ⟨[], code, rfl, rfl⟩
  | line :: range, code, before, after, linked, cut => by
      have middle : code.lines = before ++ line :: (range ++ after) := by
        simpa using cut
      obtain ⟨left, right, entriesEq, _, rfl, rightEq⟩ := entries_of_middle middle
      obtain ⟨chain, taken, chainLinked, chainEntries⟩ :=
        Chain.WellLinked.exists_unlink linked entriesEq
      let shorter : Code := { code with chain := chain }
      have shorterLinked : shorter.WellLinked := chainLinked
      have shorterLines :
          shorter.lines =
            left.map (fun entry => ⟨code.handleOf entry.1, entry.2⟩) ++ range ++ after := by
        rw [List.append_assoc, rightEq, ← List.map_append, ← chainEntries]
        rfl
      obtain ⟨instrs, result, rest, restStrict⟩ :=
        exists_unlinkAllStrict range shorterLinked shorterLines
      refine ⟨line.instr :: instrs, result, ?_, ?_⟩
      · simp only [List.map_cons, unlinkAll, taken]
        rw [rest]
        rfl
      · simp only [List.map_cons, unlinkAllStrict,
          Chain.WellLinked.unlinkStrict_eq linked entriesEq, taken, Option.bind_eq_bind,
          Option.bind_some]
        rw [restStrict]
        rfl

theorem removeRangeStrict_eq
    (linked : code.WellLinked) (first : Handle) (count : Nat) (repair : Repair) :
    code.removeRangeStrict first count repair = some (code.removeRange first count repair) := by
  unfold removeRangeStrict removeRange
  cases live : code.require first with
  | error rejection => rfl
  | ok nothing =>
      dsimp only
      by_cases zero : count = 0
      · rw [if_pos zero, if_pos zero]
      rw [if_neg zero, if_neg zero]
      obtain exceeded | ⟨before, range, after, cut, _, _, ranged⟩ :=
        range?_cases linked (require_eq_ok_iff.mp live) count
      · rw [exceeded]
        exact linked.along_eq _
      rw [ranged]
      dsimp only
      rw [linked.along_eq]
      rcases redirected :
          code.redirectIntruding (range.map Line.handle) (after.head?.map Line.handle) repair
        with ⟨answer, mended⟩
      cases answer with
      | error rejection => rfl
      | ok nothing =>
          obtain ⟨mend, _, mendedLinked, mendedLines, _⟩ :=
            mends_of_redirectIntruding linked cut redirected
          have mendedCut :
              mended.lines =
                before.map (Line.mapInstr mend) ++ range.map (Line.mapInstr mend) ++
                  after.map (Line.mapInstr mend) := by
            rw [mendedLines, cut, List.map_append, List.map_append]
          obtain ⟨instrs, result, taken, strict⟩ :=
            exists_unlinkAllStrict _ mendedLinked mendedCut
          rw [List.map_map, handle_comp_mapInstr] at taken strict
          simp only [Option.bind_eq_bind, Option.bind_some, strict, taken]
          rfl

/-- A removal of one instruction answers one. -/
theorem removeStrict_eq (linked : code.WellLinked) (handle : Handle) (repair : Repair) :
    code.removeStrict handle repair = some (code.remove handle repair) := by
  rw [removeStrict, linked.removeRangeStrict_eq, remove]
  rcases done : code.removeRange handle 1 repair with ⟨answer, result⟩
  cases answer with
  | error rejection => rfl
  | ok removed =>
      obtain ⟨zero, _⟩ | ⟨_, range, _, _, lengthEq, _, rfl, _⟩ :=
        removed_of_removeRange linked done
      · cases zero
      · obtain ⟨line, rfl⟩ := List.length_eq_one_iff.mp lengthEq
        rfl

theorem removeAtStrict_eq (linked : code.WellLinked) (position : Nat) (repair : Repair) :
    code.removeAtStrict position repair = some (code.removeAt position repair) := by
  rw [removeAtStrict, linked.along_eq, removeAt]
  cases code.handleAt position with
  | error rejection => rfl
  | ok handle => exact linked.removeStrict_eq handle repair

theorem removeRangeAtStrict_eq
    (linked : code.WellLinked) (position count : Nat) (repair : Repair) :
    code.removeRangeAtStrict position count repair =
      some (code.removeRangeAt position count repair) := by
  rw [removeRangeAtStrict, linked.along_eq, removeRangeAt]
  cases code.handleAt position with
  | error rejection => rfl
  | ok handle => exact linked.removeRangeStrict_eq handle count repair

end WellLinked

end Code

end BytecodePatch
