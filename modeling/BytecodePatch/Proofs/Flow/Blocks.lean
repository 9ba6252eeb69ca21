import BytecodePatch.Proofs.Flow.Paths
import BytecodePatch.Proofs.Patch.Blocks

/-!
# Paths through new blocks

A block of new lines is entered from the line before it only, because nothing refers into it,
and no step between old lines is another one than before. So a path of the code with the block
is one of the code without it, once the block is left out. If the block and the line before it
are straight, the paths are the same ones: whoever goes on from this line goes through the
whole block first.
-/

namespace BytecodePatch.Code

/-- The paths of the code before are what is left of the paths of the result without some
handles. -/
structure SamePathsWithout (code : Code) (handles : List Handle) (result : Code) : Prop where
  filtered : ∀ path, result.IsPath path → code.IsPath (path.filter (· ∉ handles))
  obtained :
    ∀ path, code.IsPath path →
      ∃ longer, result.IsPath longer ∧ longer.filter (· ∉ handles) = path

namespace InsertedAll

variable {code result : Code} {before after : List Line} {line : Line}
  {instrs : List (Instr Handle)} {handles path : List Handle} {here there : Handle}

section

variable (inserted : InsertedAll code (before ++ [line]) after instrs handles result)
include inserted

/-! ## Steps -/

/-- A block that is not empty begins behind its line. -/
theorem next?_eq_head? (filled : handles ≠ []) :
    result.next? line.handle = handles.head? := by
  have lines :
      result.lines = before ++ line :: (List.zipWith Line.mk handles instrs ++ after) := by
    rw [inserted.lines, List.append_assoc, List.append_assoc, List.singleton_append]
  have handlesEq := inserted.map_handle
  rw [inserted.linked.next?_eq lines]
  cases block : List.zipWith Line.mk handles instrs with
  | nil =>
      rw [block] at handlesEq
      exact absurd handlesEq.symm filled
  | cons first rest =>
      rw [block] at handlesEq
      rw [← handlesEq]
      rfl

/-- A step from an old line to anywhere is an old step, except that the line before the block
goes on to the block. -/
theorem flows_of_not_mem
    (sound : code.Sound) (outside : here ∉ handles) (flows : result.Flows here there) :
    (code.Flows here there ∧ code.contains there = true) ∨
      (here = line.handle ∧ result.next? here = some there) := by
  have heldEq := inserted.get?_of_not_mem sound.linked outside
  have live : code.contains here = true := by
    rw [Code.contains, ← heldEq]
    exact flows.contains
  rcases flows with ⟨⟨instr, found, falls⟩, follows⟩ | ⟨instr, found, refMember⟩
  · rw [heldEq] at found
    by_cases isLine : here = line.handle
    · exact Or.inr ⟨isLine, follows⟩
    · rw [inserted.next?_of_ne sound.linked live isLine] at follows
      exact Or.inl ⟨Or.inl ⟨⟨instr, found, falls⟩, follows⟩,
        sound.linked.contains_of_next? follows⟩
  · rw [heldEq] at found
    have listed := sound.live _ (sound.linked.get?_eq_some_iff.mp found) there refMember
    exact Or.inl ⟨Or.inr ⟨instr, found, refMember⟩, sound.linked.contains_iff.mpr listed⟩

/-- An old step from anywhere but the line before the block is still a step. -/
theorem flows_of_ne
    (linked : code.WellLinked) (other : here ≠ line.handle) (flows : code.Flows here there) :
    result.Flows here there := by
  have live := flows.contains
  have outside : here ∉ handles := fun member =>
    inserted.not_mem_handles member (linked.contains_iff.mp live)
  have heldEq := inserted.get?_of_not_mem linked outside
  have nextEq := inserted.next?_of_ne linked live other
  rcases flows with ⟨⟨instr, found, falls⟩, follows⟩ | ⟨instr, found, refMember⟩
  · exact Or.inl ⟨⟨instr, heldEq.trans found, falls⟩, nextEq.trans follows⟩
  · exact Or.inr ⟨instr, heldEq.trans found, refMember⟩

/-! ## Paths -/

/-- A path of the code with the block, without the block. -/
theorem isPath_filter
    {exit : Handle → Prop}
    (sound : code.Sound) (filled : handles ≠ [])
    (leads : LeadsThrough result.Flows exit handles)
    (exits : ∀ there, exit there → code.Flows line.handle there)
    (isPath : result.IsPath path) : code.IsPath (path.filter (· ∉ handles)) where
  live := by
    intro handle member
    obtain ⟨onPath, outside⟩ := List.mem_filter.mp member
    have heldEq := inserted.get?_of_not_mem sound.linked (of_decide_eq_true outside)
    rw [Code.contains, ← heldEq]
    exact isPath.live handle onPath
  flows := by
    have kept :
        ∀ here there,
          here ∉ handles → there ∉ handles → result.Flows here there →
            code.Flows here there := by
      intro here there outside outsideToo flows
      rcases inserted.flows_of_not_mem sound outside flows with ⟨old, _⟩ | ⟨rfl, follows⟩
      · exact old
      · rw [inserted.next?_eq_head? filled] at follows
        exact absurd (List.mem_of_head? follows) outsideToo
    have enters :
        ∀ here there,
          here ∉ handles → there ∈ handles → result.Flows here there →
            here = line.handle := by
      intro here there outside inBlock flows
      rcases inserted.flows_of_not_mem sound outside flows with ⟨_, live⟩ | ⟨same, _⟩
      · exact absurd (sound.linked.contains_iff.mp live) (inserted.not_mem_handles inBlock)
      · exact same
    apply isChain_filter_not_mem kept enters _ isPath.flows
    intro here there inBlock outside flows
    exact exits there ((leads.mem_or_exit here inBlock there flows).resolve_left outside)

/-- A path of the code without the block, with the block wherever it goes on from the line
before it. -/
theorem exists_isPath_filter
    (linked : code.WellLinked)
    (through :
      ∀ there, code.Flows line.handle there →
        (line.handle :: (handles ++ [there])).IsChain result.Flows)
    (isPath : code.IsPath path) :
    ∃ longer, result.IsPath longer ∧ longer.filter (· ∉ handles) = path := by
  have apart : ∀ handle ∈ path, handle ∉ handles := by
    intro handle onPath inBlock
    exact inserted.not_mem_handles inBlock (linked.contains_iff.mp (isPath.live handle onPath))
  have steps :
      ∀ here there, code.Flows here there →
        result.Flows here there ∨ (here :: (handles ++ [there])).IsChain result.Flows := by
    intro here there flows
    by_cases isLine : here = line.handle
    · subst isLine
      exact Or.inr (through there flows)
    · exact Or.inl (inserted.flows_of_ne linked isLine flows)
  obtain ⟨longer, chain, filtered, _⟩ := exists_isChain_filter steps apart isPath.flows
  refine ⟨longer, ⟨?_, chain⟩, filtered⟩
  intro handle member
  by_cases inBlock : handle ∈ handles
  · rw [inserted.linked.contains_iff, Code.handles, inserted.lines, List.map_append,
      List.map_append, inserted.map_handle]
    exact List.mem_append_left _ (List.mem_append_right _ inBlock)
  · have onPath : handle ∈ path := by
      rw [← filtered]
      exact List.mem_filter.mpr ⟨member, decide_eq_true inBlock⟩
    rw [Code.contains, inserted.get?_of_not_mem linked inBlock]
    exact isPath.live handle onPath

end

/-! ## Straight blocks -/

/-- The paths go through a straight block behind a straight line. -/
theorem samePathsWithout
    (inserted : InsertedAll code (before ++ [line]) after instrs handles result)
    (sound : code.Sound) (cut : code.lines = before ++ line :: after) (filled : instrs ≠ [])
    (lineStraight : line.instr.opcode.isStraight = true)
    (fits : ∀ instr ∈ instrs, instr.HasShape)
    (straight : ∀ instr ∈ instrs, instr.opcode.isStraight = true) :
    SamePathsWithout code handles result := by
  have ofBlock :
      ∀ other ∈ List.zipWith Line.mk handles instrs, other.instr ∈ instrs := by
    intro other member
    rw [← inserted.map_instr]
    exact List.mem_map_of_mem member
  obtain ⟨block, last, blockEq⟩ :
      ∃ block last, List.zipWith Line.mk handles instrs = block ++ [last] := by
    rcases List.eq_nil_or_concat' (List.zipWith Line.mk handles instrs) with empty | concat
    · have none := inserted.map_instr
      rw [empty] at none
      exact absurd none.symm filled
    · exact concat
  have handlesEq : handles = (block ++ [last]).map Line.handle := by
    rw [← blockEq, inserted.map_handle]
  have lines : result.lines = (before ++ [line]) ++ (block ++ last :: after) := by
    rw [inserted.lines, blockEq]
    simp
  rw [blockEq] at ofBlock
  have lastFits := fits _ (ofBlock last (List.mem_append_right _ List.mem_cons_self))
  have lastStraight := straight _ (ofBlock last (List.mem_append_right _ List.mem_cons_self))
  have lineFits : line.instr.HasShape := by
    apply sound.shape
    rw [cut]
    exact List.mem_append_right before List.mem_cons_self
  have onwards := sound.linked.flows_iff_of_isStraight cut lineFits lineStraight
  constructor
  · intro path isPath
    have lastCut : result.lines = ((before ++ [line]) ++ block) ++ last :: after := by
      rw [lines, List.append_assoc _ block]
    have leaves := inserted.linked.flows_iff_of_isStraight lastCut lastFits lastStraight
    have leads :=
      inserted.linked.leadsThrough_of_isStraight lines
        (fun other member => fits _ (ofBlock other (List.mem_append_left _ member)))
        (fun other member => straight _ (ofBlock other (List.mem_append_left _ member)))
        fun reached => (leaves reached).mp
    rw [← handlesEq] at leads
    have handlesFilled : handles ≠ [] := by
      rw [handlesEq]
      simp
    exact inserted.isPath_filter sound handlesFilled leads (fun there => (onwards there).mpr) isPath
  · intro path isPath
    apply inserted.exists_isPath_filter sound.linked _ isPath
    intro there flows
    obtain ⟨next, head, rfl⟩ := Option.map_eq_some_iff.mp ((onwards there).mp flows)
    obtain ⟨later, rfl⟩ := List.head?_eq_some_iff.mp head
    have whole : result.lines = before ++ ((line :: (block ++ [last])) ++ next :: later) := by
      rw [lines]
      simp
    have falls :
        ∀ other ∈ line :: (block ++ [last]), other.instr.opcode.fallsThrough = true := by
      refine List.forall_mem_cons.mpr ⟨Opcode.fallsThrough_of_isStraight lineStraight, ?_⟩
      intro other member
      exact Opcode.fallsThrough_of_isStraight (straight _ (ofBlock other member))
    have chain := inserted.linked.isChain_of_fallsThrough whole falls
    rw [List.map_append, List.map_cons, ← handlesEq] at chain
    exact chain

end InsertedAll

end BytecodePatch.Code
