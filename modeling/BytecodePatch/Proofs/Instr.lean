import BytecodePatch.Instr.Basic

/-!
# Replacing the references of instructions

Replacing references twice is replacing them once, and what an instruction becomes depends
only on what its own references become.
-/

namespace BytecodePatch

variable {Ref NewRef LastRef : Type}

namespace Operand

theorem map_map (first : Ref → NewRef) (second : NewRef → LastRef) (operand : Operand Ref) :
    (operand.map first).map second = operand.map (second ∘ first) := by
  cases operand <;> simp [map]

theorem map_congr
    {first second : Ref → NewRef} {operand : Operand Ref}
    (same : ∀ ref ∈ operand.refs, first ref = second ref) :
    operand.map first = operand.map second := by
  cases operand with
  | target ref => simpa [map, refs] using same
  | targets refs =>
      simp only [map, targets.injEq]
      exact List.map_congr_left same
  | _ => rfl

theorem map_id (operand : Operand Ref) : operand.map id = operand := by
  cases operand <;> simp [map]

end Operand

namespace Instr

theorem map_map (first : Ref → NewRef) (second : NewRef → LastRef) (instr : Instr Ref) :
    (instr.map first).map second = instr.map (second ∘ first) := by
  simp only [map, Operand.map_map]

theorem map_congr
    {first second : Ref → NewRef} {instr : Instr Ref}
    (same : ∀ ref ∈ instr.refs, first ref = second ref) :
    instr.map first = instr.map second := by
  simp only [map, Operand.map_congr same]

theorem map_id (instr : Instr Ref) : instr.map id = instr := by
  simp only [map, Operand.map_id]

/-- An instruction stays as it is if its own references do. -/
theorem map_eq_self
    {change : Ref → Ref} {instr : Instr Ref} (fixed : ∀ ref ∈ instr.refs, change ref = ref) :
    instr.map change = instr :=
  (map_congr fixed).trans (map_id instr)

section Redirect

variable [DecidableEq Ref]

@[simp]
theorem hasShape_redirect (sources : List Ref) (destination : Ref) (instr : Instr Ref) :
    (instr.redirect sources destination).HasShape ↔ instr.HasShape :=
  hasShape_map _ _

/-- A reference of a redirected instruction is the destination, or an old one that is no
source. -/
theorem mem_refs_redirect
    {sources : List Ref} {destination ref : Ref} {instr : Instr Ref}
    (member : ref ∈ (instr.redirect sources destination).refs) :
    ref = destination ∨ (ref ∈ instr.refs ∧ ref ∉ sources) := by
  rw [redirect, refs_map] at member
  obtain ⟨old, oldMember, rfl⟩ := List.mem_map.mp member
  by_cases redirected : old ∈ sources
  · rw [if_pos redirected]
    exact Or.inl rfl
  · rw [if_neg redirected]
    exact Or.inr ⟨oldMember, redirected⟩

/-- An instruction without references to the sources stays as it is. -/
theorem redirect_eq_self
    {sources : List Ref} {destination : Ref} {instr : Instr Ref}
    (apart : ∀ ref ∈ instr.refs, ref ∉ sources) :
    instr.redirect sources destination = instr :=
  map_eq_self fun ref member => if_neg (apart ref member)

/-- Redirecting again changes nothing: what is left of a source is the destination. -/
theorem redirect_redirect (source destination : Ref) (instr : Instr Ref) :
    (instr.redirect [source] destination).redirect [source] destination =
      instr.redirect [source] destination := by
  rw [redirect, redirect, map_map]
  apply map_congr
  intro ref _
  simp only [Function.comp_apply, List.mem_singleton]
  by_cases isSource : ref = source
  · simp only [if_pos isSource, ite_self]
  · simp only [if_neg isSource]

end Redirect

end Instr

end BytecodePatch
