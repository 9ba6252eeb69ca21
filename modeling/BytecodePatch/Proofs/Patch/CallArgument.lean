import BytecodePatch.Proofs.Patch.Replacement

/-!
# Replacing the argument of a call

A literal is replaced as an argument if a call follows it. The search for the call goes past
every instruction that is no branch and no return, so an instruction that raises an exception
does not end it. All other attempts leave the code as it is.
-/

namespace BytecodePatch

/-- The search for the call that takes a literal goes on behind these instructions. -/
def Opcode.isPassedOver (opcode : Opcode) : Bool :=
  !opcode.isBranch && opcode != ret

namespace Code

/-- The operand of a live instruction is a literal. -/
def HoldsLiteral (code : Code) (handle : Handle) : Prop :=
  ∃ instr value, code.get? handle = some instr ∧ instr.literal? = some value

/-- A call follows an instruction, and every opcode between them passes. -/
def CallFollows (passes : Opcode → Bool) (code : Code) (handle : Handle) : Prop :=
  ∃ before line between call after,
    code.lines = before ++ line :: (between ++ call :: after) ∧ line.handle = handle ∧
      call.instr.opcode.isCall = true ∧ ∀ other ∈ between, passes other.instr.opcode = true

end Code

namespace Edit

open Code

variable {code : Code} {literal : Handle} {replacement : List (Instr Handle)}

/-- What can be replaced: a literal that a call follows, by something that the code accepts. -/
structure ArgumentReplaceable
    (code : Code) (literal : Handle) (replacement : List (Instr Handle)) : Prop where
  operand : code.HoldsLiteral literal
  follows : code.CallFollows Opcode.isPassedOver literal
  replaceable : Replaceable code literal 1 replacement

/-- What comes of the replacement of an argument: that of the range of the literal alone, or
nothing at all. -/
inductive ArgumentReplacement
    (code : Code) (literal : Handle) (replacement : List (Instr Handle)) : Outcome → Prop where
  | done {handles : List Handle} {result : Code}
      (possible : ArgumentReplaceable code literal replacement)
      (replaced : RangeReplacement code literal 1 replacement (.ok handles, result)) :
      ArgumentReplacement code literal replacement (.ok handles, result)
  | refused {error : PatchError}
      (impossible : ¬ArgumentReplaceable code literal replacement) :
      ArgumentReplacement code literal replacement (.error error, code)

/-- The lines behind an instruction decide whether a call follows it. -/
theorem callFollows_iff_of_cut
    {passes : Opcode → Bool} {before after : List Line} {line : Line}
    (linked : code.WellLinked) (cut : code.lines = before ++ line :: after) :
    code.CallFollows passes line.handle ↔
      ∃ between call rest,
        after = between ++ call :: rest ∧ call.instr.opcode.isCall = true ∧
          ∀ other ∈ between, passes other.instr.opcode = true := by
  constructor
  · intro follows
    obtain ⟨first, same, between, call, rest, otherCut, named, called, passed⟩ := follows
    have position := linked.position?_of_cut otherCut
    rw [named, linked.position?_of_cut cut, Option.some.injEq] at position
    have lines := (List.append_inj (cut.symm.trans otherCut) position).2
    exact ⟨between, call, rest, (List.cons.inj lines).2, called, passed⟩
  · intro follows
    obtain ⟨between, call, rest, rfl, called, passed⟩ := follows
    exact ⟨before, line, between, call, rest, cut, rfl, called, passed⟩

/-- The search finds a call exactly if one follows before anything that is not passed over. -/
theorem callFollows_eq_true_iff {lines : List Line} :
    callFollows lines = true ↔
      ∃ between call after,
        lines = between ++ call :: after ∧ call.instr.opcode.isCall = true ∧
          ∀ other ∈ between, other.instr.opcode.isPassedOver = true := by
  induction lines with
  | nil => simp [callFollows]
  | cons line lines inductionHypothesis =>
      rw [callFollows]
      by_cases called : line.instr.opcode.isCall = true
      · rw [if_pos called]
        exact iff_of_true rfl ⟨[], line, lines, rfl, called, by simp⟩
      · have ends :
            (line.instr.opcode.isBranch || line.instr.opcode == .ret) =
              !line.instr.opcode.isPassedOver := by
          simp [Opcode.isPassedOver, bne]
        rw [if_neg called, ends]
        constructor
        · intro found
          by_cases passed : line.instr.opcode.isPassedOver = true
          · rw [passed, if_neg (by decide)] at found
            obtain ⟨between, call, after, rfl, isCall, passedAll⟩ := inductionHypothesis.mp found
            exact ⟨line :: between, call, after, rfl, isCall,
              List.forall_mem_cons.mpr ⟨passed, passedAll⟩⟩
          · rw [Bool.not_eq_true] at passed
            rw [passed, if_pos (by decide)] at found
            cases found
        · intro follows
          obtain ⟨between, call, after, cut, isCall, passedAll⟩ := follows
          cases between with
          | nil => exact absurd ((List.cons.inj cut).1 ▸ isCall) called
          | cons other between =>
              obtain ⟨rfl, rfl⟩ := List.cons.inj cut
              obtain ⟨passed, passedRest⟩ := List.forall_mem_cons.mp passedAll
              rw [passed, if_neg (by decide)]
              exact inductionHypothesis.mpr ⟨between, call, after, rfl, isCall, passedRest⟩

/-- The literal is looked at first, then what follows it, and then the replacement. -/
private theorem replaceCallArgument_of_cut
    {before after : List Line} {line : Line}
    (linked : code.WellLinked) (cut : code.lines = before ++ line :: after) :
    replaceCallArgument code line.handle replacement =
      if line.instr.literal?.isNone then (.error (code.misfit line.handle .notLiteral), code)
      else if callFollows after then replaceRange code line.handle 1 replacement
      else (.error (code.misfit line.handle .unconsumedLiteral), code) := by
  have found : code.get line.handle = .ok line.instr := get_eq_ok_iff.mpr (linked.get?_of_cut cut)
  have following : code.lines.drop (before.length + 1) = after := by
    rw [cut, List.append_cons]
    exact List.drop_left' (by simp)
  simp only [replaceCallArgument, found, linked.position?_of_cut cut, following]

/-- A literal in sound code is replaced exactly if a call follows it and the code accepts what
is to stand in its place. -/
theorem argumentReplacement
    (sound : code.Sound) (literal : Handle) (replacement : List (Instr Handle)) :
    ArgumentReplacement code literal replacement
      (replaceCallArgument code literal replacement) := by
  by_cases live : code.contains literal = true
  · obtain ⟨before, line, after, cut, rfl⟩ := sound.linked.exists_cut live
    have held := sound.linked.get?_of_cut cut
    rw [replaceCallArgument_of_cut sound.linked cut]
    cases value : line.instr.literal? with
    | none =>
        refine .refused fun possible => ?_
        obtain ⟨instr, found, heldInstr, isLiteral⟩ := possible.operand
        obtain rfl := Option.some.inj (held.symm.trans heldInstr)
        rw [value] at isLiteral
        cases isLiteral
    | some found =>
        rw [Option.isNone_some, if_neg Bool.false_ne_true]
        by_cases follows : callFollows after = true
        · rw [if_pos follows]
          have called : code.CallFollows Opcode.isPassedOver line.handle :=
            (callFollows_iff_of_cut sound.linked cut).mpr (callFollows_eq_true_iff.mp follows)
          by_cases replaceable : Replaceable code line.handle 1 replacement
          · have possible : ArgumentReplaceable code line.handle replacement :=
              ⟨⟨_, _, held, value⟩, called, replaceable⟩
            have replaced := rangeReplacement_of_replaceable sound.linked replaceable
            generalize replaceRange code line.handle 1 replacement = outcome at replaced ⊢
            cases replaced with
            | done _ spans length new lines =>
                exact .done possible (.done replaceable spans length new lines)
            | refused impossible _ => exact absurd replaceable impossible
          · obtain ⟨error, refused⟩ :=
              replaceRange_one_of_not_replaceable sound.linked live replaceable
            rw [refused]
            exact .refused fun possible => replaceable possible.replaceable
        · rw [if_neg follows]
          refine .refused fun possible => follows ?_
          exact callFollows_eq_true_iff.mpr
            ((callFollows_iff_of_cut sound.linked cut).mp possible.follows)
  · have gone : code.get? literal = none := Option.not_isSome_iff_eq_none.mp live
    have found : code.get literal = .error (.staleHandle literal) := by
      rw [Code.get, gone]
    rw [replaceCallArgument, found]
    refine .refused fun possible => ?_
    obtain ⟨instr, value, held, _⟩ := possible.operand
    rw [gone] at held
    cases held

end Edit

end BytecodePatch
