import BytecodePatch.Proofs.Code.Sound
import Mathlib.Data.List.Chain

/-!
# Paths of control

Control goes on from an instruction to the next one, unless it always leaves through the
instruction, and to each instruction that this one refers to. A path is any sequence of live
instructions through which control may go one after another, wherever it starts and ends.

A block of straight instructions is gone through from its start to its end. If it is entered
from one place only, and left only for where control could go from that place without it,
then cutting it out of a path leaves a path. Where control could only go on from that place to
the next one, every path is left over from one through the block.
-/

namespace BytecodePatch

namespace Opcode

/-- Control may go on to the next instruction. -/
def fallsThrough (opcode : Opcode) : Bool :=
  opcode != branch && opcode != ret && opcode != raise

/-- Control always goes on to the next instruction: no branch, no return and no exception. -/
def isStraight (opcode : Opcode) : Bool :=
  !opcode.isBranch && opcode != ret && opcode != raise

theorem fallsThrough_of_isStraight
    {opcode : Opcode} (straight : opcode.isStraight = true) : opcode.fallsThrough = true := by
  cases opcode with
  | branch => cases straight
  | ret => cases straight
  | raise => cases straight
  | _ => rfl

theorem fallsThrough_of_isConditionalBranch
    {opcode : Opcode} (conditional : opcode.isConditionalBranch = true) :
    opcode.fallsThrough = true := by
  cases opcode with
  | branch => cases conditional
  | ret => cases conditional
  | raise => cases conditional
  | _ => rfl

end Opcode

/-- Where there is no branch, there is nothing to refer to. -/
theorem Instr.refs_eq_nil_of_isStraight
    {Ref : Type} {instr : Instr Ref}
    (fits : instr.HasShape) (straight : instr.opcode.isStraight = true) :
    instr.refs = [] := by
  have noBranch : instr.opcode.isBranch = false := by
    simp only [Opcode.isStraight, Bool.and_eq_true, Bool.not_eq_true'] at straight
    exact straight.1.1
  rw [Opcode.isBranch, ← fits] at noBranch
  rw [Instr.refs]
  cases operandEq : instr.operand with
  | target ref =>
      rw [operandEq] at noBranch
      cases noBranch
  | targets refs =>
      rw [operandEq] at noBranch
      cases noBranch
  | _ => rfl

theorem Instr.mem_refs_of_target?
    {Ref : Type} {instr : Instr Ref} {target : Ref}
    (targeted : instr.target? = some target) : target ∈ instr.refs := by
  unfold Instr.target? at targeted
  split at targeted
  · rename_i ref operandEq
    obtain rfl := Option.some.inj targeted
    rw [Instr.refs, operandEq]
    exact List.mem_singleton.mpr rfl
  · cases targeted

namespace Code

/-- Control may go on from one instruction to the other, which follows it. -/
def FallsThrough (code : Code) (here there : Handle) : Prop :=
  (∃ instr, code.get? here = some instr ∧ instr.opcode.fallsThrough = true) ∧
    code.next? here = some there

/-- Control may jump from one instruction to the other. -/
def Jumps (code : Code) (here there : Handle) : Prop :=
  ∃ instr, code.get? here = some instr ∧ there ∈ instr.refs

def Flows (code : Code) (here there : Handle) : Prop :=
  code.FallsThrough here there ∨ code.Jumps here there

/-- Live instructions through which control may go one after another. -/
structure IsPath (code : Code) (path : List Handle) : Prop where
  live : ∀ handle ∈ path, code.contains handle = true
  flows : path.IsChain code.Flows

variable {code : Code} {here there : Handle}

theorem Flows.contains (flows : code.Flows here there) : code.contains here = true := by
  rcases flows with ⟨⟨instr, found, _⟩, _⟩ | ⟨instr, found, _⟩
  · exact Option.isSome_iff_exists.mpr ⟨instr, found⟩
  · exact Option.isSome_iff_exists.mpr ⟨instr, found⟩

end Code

/-! ## Blocks on paths -/

section Blocks

variable {α : Type} {step oldStep : α → α → Prop} {exit : α → Prop} {block path : List α}
  {entry : α}

/-- Steps lead through a block from its first member to its last one and there to an exit. -/
inductive LeadsThrough (step : α → α → Prop) (exit : α → Prop) : List α → Prop where
  | last {last : α} (exits : ∀ reached, step last reached → exit reached) :
      LeadsThrough step exit [last]
  | cons {here there : α} {rest : List α}
      (onwards : ∀ reached, step here reached → reached = there)
      (later : LeadsThrough step exit (there :: rest)) :
      LeadsThrough step exit (here :: there :: rest)

/-- A step from a member of the block stays in the block or goes to an exit. -/
theorem LeadsThrough.mem_or_exit
    (leads : LeadsThrough step exit block) :
    ∀ here ∈ block, ∀ reached, step here reached → reached ∈ block ∨ exit reached := by
  induction leads with
  | last exits =>
      intro here member reached stepped
      obtain rfl := List.mem_singleton.mp member
      exact Or.inr (exits reached stepped)
  | @cons first second rest onwards later inductionHypothesis =>
      intro here member reached stepped
      rcases List.mem_cons.mp member with rfl | inRest
      · rw [onwards reached stepped]
        exact Or.inl (List.mem_cons_of_mem _ List.mem_cons_self)
      · rcases inductionHypothesis here inRest reached stepped with inBlock | exited
        · exact Or.inl (List.mem_cons_of_mem _ inBlock)
        · exact Or.inr exited

/-- A path that enters the block at its start ends in it or goes through it to an exit. -/
theorem LeadsThrough.prefix_or_exit
    (leads : LeadsThrough step exit block)
    (chain : path.IsChain step) (entered : path.head? = block.head?) :
    path <+: block ∨ ∃ there rest, path = block ++ there :: rest ∧ exit there := by
  induction leads generalizing path with
  | @last last exits =>
      obtain ⟨later, rfl⟩ := List.head?_eq_some_iff.mp entered
      cases later with
      | nil => exact Or.inl (List.prefix_refl [last])
      | cons reached rest =>
          have stepped := (List.isChain_cons_cons.mp chain).1
          exact Or.inr ⟨reached, rest, rfl, exits reached stepped⟩
  | @cons first second rest onwards later inductionHypothesis =>
      obtain ⟨others, rfl⟩ := List.head?_eq_some_iff.mp entered
      cases others with
      | nil => exact Or.inl (List.prefix_append [first] (second :: rest))
      | cons reached others =>
          obtain ⟨stepped, othersChain⟩ := List.isChain_cons_cons.mp chain
          have enteredNext : (reached :: others).head? = (second :: rest).head? :=
            congrArg some (onwards reached stepped)
          rcases inductionHypothesis othersChain enteredNext with
            ends | ⟨there, after, through, exited⟩
          · exact Or.inl ((List.prefix_cons_inj first).mpr ends)
          · exact Or.inr ⟨there, after, congrArg (first :: ·) through, exited⟩

/-- What is left of a path that starts in a block begins where the path left the block. -/
private theorem oldStep_of_mem
    [DecidableEq α] {first : α}
    (leaves :
      ∀ here there, here ∈ block → there ∉ block → step here there → oldStep entry there)
    (inside : first ∈ block) (chain : (first :: path).IsChain step) :
    ∀ there ∈ (path.filter (· ∉ block)).head?, oldStep entry there := by
  induction path generalizing first with
  | nil => simp
  | cons next others inductionHypothesis =>
      obtain ⟨stepped, othersChain⟩ := List.isChain_cons_cons.mp chain
      by_cases nextInside : next ∈ block
      · rw [List.filter_cons_of_neg (by simpa using nextInside)]
        exact inductionHypothesis nextInside othersChain
      · rw [List.filter_cons_of_pos (by simpa using nextInside)]
        intro there onwards
        obtain rfl := Option.some.inj onwards
        exact leaves first next inside nextInside stepped

/-- A path without a block that it can enter from one place only is a path of the old steps,
if these lead from that place to wherever the block is left for. -/
theorem isChain_filter_not_mem
    [DecidableEq α]
    (kept :
      ∀ here there,
        here ∉ block → there ∉ block → step here there → oldStep here there)
    (enters :
      ∀ here there, here ∉ block → there ∈ block → step here there → here = entry)
    (leaves :
      ∀ here there, here ∈ block → there ∉ block → step here there → oldStep entry there)
    (chain : path.IsChain step) :
    (path.filter (· ∉ block)).IsChain oldStep := by
  induction path with
  | nil => exact List.isChain_nil
  | cons here rest inductionHypothesis =>
      obtain ⟨steps, restChain⟩ := List.isChain_cons.mp chain
      by_cases inside : here ∈ block
      · rw [List.filter_cons_of_neg (by simpa using inside)]
        exact inductionHypothesis restChain
      · rw [List.filter_cons_of_pos (by simpa using inside), List.isChain_cons]
        refine ⟨?_, inductionHypothesis restChain⟩
        intro there onwards
        cases rest with
        | nil => cases onwards
        | cons next others =>
            have stepped := steps next rfl
            by_cases nextInside : next ∈ block
            · rw [List.filter_cons_of_neg (by simpa using nextInside)] at onwards
              rw [enters here next inside nextInside stepped]
              exact oldStep_of_mem leaves nextInside restChain there onwards
            · rw [List.filter_cons_of_pos (by simpa using nextInside)] at onwards
              obtain rfl := Option.some.inj onwards
              exact kept here next inside nextInside stepped

/-- A path of the old steps is left over from a path of the new ones, if each old step is still
one or leads through the block. -/
theorem exists_isChain_filter
    [DecidableEq α]
    (through :
      ∀ here there,
        oldStep here there → step here there ∨ (here :: (block ++ [there])).IsChain step)
    (apart : ∀ item ∈ path, item ∉ block) (chain : path.IsChain oldStep) :
    ∃ longer : List α,
      longer.IsChain step ∧ longer.filter (· ∉ block) = path ∧ longer.head? = path.head? := by
  induction path with
  | nil => exact ⟨[], List.isChain_nil, rfl, rfl⟩
  | cons here rest inductionHypothesis =>
      obtain ⟨outside, restApart⟩ := List.forall_mem_cons.mp apart
      have kept :
          ∀ others, (here :: others).filter (· ∉ block) = here :: others.filter (· ∉ block) :=
        fun _ => List.filter_cons_of_pos (by simpa using outside)
      cases rest with
      | nil => exact ⟨[here], List.isChain_singleton here, kept [], rfl⟩
      | cons next others =>
          obtain ⟨stepped, restChain⟩ := List.isChain_cons_cons.mp chain
          obtain ⟨longer, longerChain, filtered, started⟩ :=
            inductionHypothesis restApart restChain
          obtain ⟨later, rfl⟩ := List.head?_eq_some_iff.mp started
          rcases through here next stepped with direct | around
          · exact ⟨here :: next :: later, List.isChain_cons_cons.mpr ⟨direct, longerChain⟩,
              by rw [kept, filtered], rfl⟩
          · have whole : (here :: block ++ next :: later).IsChain step :=
              List.isChain_split.mpr ⟨around, longerChain⟩
            refine ⟨here :: (block ++ next :: later), whole, ?_, rfl⟩
            have cutOut : block.filter (· ∉ block) = [] := by
              simp
            rw [kept, List.filter_append, cutOut, List.nil_append, filtered]

end Blocks

/-! ## Straight blocks of code -/

/-- Control may go along lines none of which it has to leave. -/
theorem Code.WellLinked.isChain_of_fallsThrough
    {code : Code} {before after block : List Line} {last : Line}
    (linked : code.WellLinked) (cut : code.lines = before ++ (block ++ last :: after))
    (falls : ∀ line ∈ block, line.instr.opcode.fallsThrough = true) :
    ((block ++ [last]).map Line.handle).IsChain code.Flows := by
  induction block generalizing before with
  | nil => exact List.isChain_singleton last.handle
  | cons line block inductionHypothesis =>
      have lineCut : code.lines = before ++ line :: (block ++ last :: after) := cut
      have restCut : code.lines = (before ++ [line]) ++ (block ++ last :: after) := by
        rw [lineCut, List.append_assoc, List.singleton_append]
      obtain ⟨lineFalls, restFalls⟩ := List.forall_mem_cons.mp falls
      have following :
          ((block ++ [last]).map Line.handle).head? = code.next? line.handle := by
        rw [linked.next?_eq lineCut]
        cases block <;> rfl
      refine List.isChain_cons.mpr ⟨?_, inductionHypothesis restCut restFalls⟩
      intro there first
      exact Or.inl
        ⟨⟨line.instr, linked.get?_of_cut lineCut, lineFalls⟩, following.symm.trans first⟩

/-- From a straight line, control goes on to the next one and nowhere else. -/
theorem Code.WellLinked.flows_iff_of_isStraight
    {code : Code} {before after : List Line} {line : Line}
    (linked : code.WellLinked) (cut : code.lines = before ++ line :: after)
    (fits : line.instr.HasShape) (straight : line.instr.opcode.isStraight = true)
    (there : Handle) :
    code.Flows line.handle there ↔ after.head?.map Line.handle = some there := by
  have held := linked.get?_of_cut cut
  rw [← linked.next?_eq cut]
  constructor
  · rintro (⟨_, follows⟩ | ⟨instr, found, refMember⟩)
    · exact follows
    · obtain rfl := Option.some.inj (held.symm.trans found)
      rw [Instr.refs_eq_nil_of_isStraight fits straight] at refMember
      cases refMember
  · intro follows
    exact Or.inl ⟨⟨line.instr, held, Opcode.fallsThrough_of_isStraight straight⟩, follows⟩

/-- Control goes through a straight block line by line. -/
theorem Code.WellLinked.leadsThrough_of_isStraight
    {code : Code} {before after block : List Line} {last : Line} {exit : Handle → Prop}
    (linked : code.WellLinked) (cut : code.lines = before ++ (block ++ last :: after))
    (fits : ∀ line ∈ block, line.instr.HasShape)
    (straight : ∀ line ∈ block, line.instr.opcode.isStraight = true)
    (exits : ∀ reached, code.Flows last.handle reached → exit reached) :
    LeadsThrough code.Flows exit ((block ++ [last]).map Line.handle) := by
  induction block generalizing before with
  | nil => exact .last exits
  | cons line block inductionHypothesis =>
      have lineCut : code.lines = before ++ line :: (block ++ last :: after) := cut
      have restCut : code.lines = (before ++ [line]) ++ (block ++ last :: after) := by
        rw [lineCut, List.append_assoc, List.singleton_append]
      obtain ⟨lineFits, restFits⟩ := List.forall_mem_cons.mp fits
      obtain ⟨lineStraight, restStraight⟩ := List.forall_mem_cons.mp straight
      have later := inductionHypothesis restCut restFits restStraight
      have onwards := fun reached =>
        (linked.flows_iff_of_isStraight lineCut lineFits lineStraight reached).mp
      cases block with
      | nil =>
          refine .cons (fun reached flows => ?_) later
          exact (Option.some.inj (onwards reached flows)).symm
      | cons next block =>
          refine .cons (fun reached flows => ?_) later
          exact (Option.some.inj (onwards reached flows)).symm

end BytecodePatch
