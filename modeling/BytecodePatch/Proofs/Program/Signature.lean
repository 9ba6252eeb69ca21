import BytecodePatch.Program.Basic
import BytecodePatch.Proofs.Program.Parameters

/-!
# Signatures that read back

A well-formed method can be written with its name alone, with its parameters, or with its
return type as well, and each of these texts reads as what it was written with: the first
opening parenthesis is the one after the name, the last space before it the one after the
return type, and the commas outside brackets are those between parameters.
-/

namespace BytecodePatch

namespace Signature

theorem innerText_append (inner : List Char) : innerText (inner ++ [')']) = inner := by
  have ends : Text.trimEnd (inner ++ [')']) = inner ++ [')'] := by
    rw [Text.trimEnd, List.reverse_append, List.reverse_singleton, List.singleton_append,
      List.dropWhile_cons_of_neg (by decide), ← List.singleton_append, List.reverse_append,
      List.reverse_reverse, List.reverse_singleton]
  rw [innerText, ends]
  simp

end Signature

/-! ## Well-formed methods -/

/-- What the names of a method need for its signature to be read back. -/
structure MethodDecl.WellFormed (method : MethodDecl) : Prop where
  name : Text.Solid method.name
  nameSpace : ' ' ∉ method.name.toList
  nameParenthesis : '(' ∉ method.name.toList
  returnType : Text.Solid method.returnType
  returnTypeParenthesis : '(' ∉ method.returnType.toList
  params : ∀ param ∈ method.params, Text.Solid param
  nested : ∀ param ∈ method.params, Signature.NestedFrom 0 param.toList

namespace Signature

variable {method : MethodDecl}

/-- A head with a parameter list in parentheses after it reads as the parts of the head and
the parameters. -/
theorem parse_call
    {head : List Char} {params : List String} {text : String}
    (parts : text.toList = head ++ '(' :: ([','].intercalate (params.map String.toList) ++ [')']))
    (trimmedHead : Text.trim head = head)
    (nonempty : head ≠ [])
    (unmarked : '(' ∉ head)
    (solid : ∀ param ∈ params, Text.Solid param)
    (nested : ∀ param ∈ params, NestedFrom 0 param.toList) :
    parse text =
      ⟨(splitHead head).1.map String.ofList, String.ofList (splitHead head).2, some params⟩ := by
  have trimmed : Text.trim text.toList = text.toList := by
    have between :=
      Text.trim_between ('(' :: [','].intercalate (params.map String.toList)) trimmedHead
        (show Text.trim [')'] = [')'] by decide) nonempty (List.cons_ne_nil _ _)
    rw [parts]
    simpa using between
  simp only [parse, trimmed]
  rw [parts, Text.cutFirst?_append _ unmarked]
  simp only [trimmedHead, innerText_append, splitParams_intercalate solid nested]
  simp [Function.comp_def]

theorem splitHead_of_no_space {head : List Char} (unspaced : ' ' ∉ head) :
    splitHead head = (none, head) := by
  rw [splitHead, Text.cutLast?_eq_none unspaced]

/-- The name of a well-formed method reads as a name. -/
theorem parse_name (wellFormed : method.WellFormed) :
    parse method.name = ⟨none, method.name, none⟩ := by
  simp only [parse, wellFormed.name.trim_toList,
    Text.cutFirst?_eq_none wellFormed.nameParenthesis,
    splitHead_of_no_space wellFormed.nameSpace]
  simp

/-- The name and the parameters of a well-formed method read as these. -/
theorem parse_paramSignature (wellFormed : method.WellFormed) :
    parse method.paramSignature = ⟨none, method.name, some method.params⟩ := by
  have parts :
      method.paramSignature.toList =
        method.name.toList ++
          '(' :: ([','].intercalate (method.params.map String.toList) ++ [')']) := by
    simp [MethodDecl.paramSignature]
  rw [parse_call parts wellFormed.name.trim_toList wellFormed.name.toList_ne_nil
    wellFormed.nameParenthesis wellFormed.params wellFormed.nested,
    splitHead_of_no_space wellFormed.nameSpace]
  simp

/-- The signature of a well-formed method reads as the method was declared. -/
theorem parse_signature (wellFormed : method.WellFormed) :
    parse method.signature = ⟨some method.returnType, method.name, some method.params⟩ := by
  let head := method.returnType.toList ++ ' ' :: method.name.toList
  have parts :
      method.signature.toList =
        head ++ '(' :: ([','].intercalate (method.params.map String.toList) ++ [')']) := by
    simp [MethodDecl.signature, MethodDecl.paramSignature, head]
  have trimmedHead : Text.trim head = head := by
    have between :=
      Text.trim_between [' '] wellFormed.returnType.trim_toList wellFormed.name.trim_toList
        wellFormed.returnType.toList_ne_nil wellFormed.name.toList_ne_nil
    simpa using between
  have unmarked : '(' ∉ head := by
    simp [head, wellFormed.nameParenthesis, wellFormed.returnTypeParenthesis]
  have headSplit : splitHead head = (some method.returnType.toList, method.name.toList) := by
    simp only [splitHead, head, Text.cutLast?_append _ wellFormed.nameSpace,
      wellFormed.returnType.trim_toList]
  rw [parse_call parts trimmedHead (by simp [head]) unmarked wellFormed.params
    wellFormed.nested, headSplit]
  simp

end Signature

end BytecodePatch
