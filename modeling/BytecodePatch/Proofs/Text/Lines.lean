import BytecodePatch.Instr.Basic

/-!
# Texts of one line

Numbers, literals and handles are shown in one line: no digit is a line break, and a quoted
text has a letter for each of its line breaks. Only names are shown as they are.
-/

namespace BytecodePatch

namespace Text

/-- A text without a line break. -/
def OneLine (text : String) : Prop :=
  '\n' ∉ text.toList

instance (text : String) : Decidable (OneLine text) :=
  inferInstanceAs (Decidable (¬_))

theorem oneLine_ofList {characters : List Char} :
    OneLine (String.ofList characters) ↔ '\n' ∉ characters := by
  rw [OneLine, String.toList_ofList]

@[simp]
theorem oneLine_append {left right : String} :
    OneLine (left ++ right) ↔ OneLine left ∧ OneLine right := by
  rw [OneLine, String.toList_append, List.mem_append, not_or, OneLine, OneLine]

theorem oneLine_intercalate
    {separator : String} {texts : List String}
    (separated : OneLine separator) (oneLine : ∀ text ∈ texts, OneLine text) :
    OneLine (String.intercalate separator texts) := by
  induction texts with
  | nil =>
      rw [String.intercalate_nil]
      decide
  | cons text texts inductionHypothesis =>
      have first : OneLine text := oneLine text List.mem_cons_self
      cases texts with
      | nil => rwa [String.intercalate_singleton]
      | cons next texts =>
          have others := inductionHypothesis fun other member =>
            oneLine other (List.mem_cons_of_mem text member)
          rw [String.intercalate_cons_cons, oneLine_append, oneLine_append]
          exact ⟨⟨first, separated⟩, others⟩

/-! ## Numbers -/

theorem digitChar_ne_newline (digit : Nat) : Nat.digitChar digit ≠ '\n' := by
  grind [Nat.digitChar]

theorem newline_not_mem_toDigits {base : Nat} (large : 1 < base) (number : Nat) :
    '\n' ∉ Nat.toDigits base number := by
  have single (digit : Nat) : '\n' ∉ [Nat.digitChar digit] := fun member =>
    digitChar_ne_newline digit (List.mem_singleton.mp member).symm
  induction number using Nat.strongRecOn with
  | ind number inductionHypothesis =>
      rw [Nat.toDigits_eq_if large]
      split
      · exact single number
      · have fewer : number / base < number := Nat.div_lt_self (by omega) large
        rw [List.mem_append, not_or]
        exact ⟨inductionHypothesis _ fewer, single _⟩

theorem oneLine_nat (number : Nat) : OneLine (toString number) := by
  rw [OneLine, Nat.toString_eq_repr, Nat.toList_repr]
  exact newline_not_mem_toDigits (by decide) number

theorem oneLine_int (number : Int) : OneLine (toString number) := by
  cases number with
  | ofNat number => exact oneLine_nat number
  | negSucc number => exact oneLine_append.mpr ⟨by decide, oneLine_nat (number + 1)⟩

/-! ## Quoted texts -/

theorem newline_not_mem_quotedCharacter (character : Char) :
    '\n' ∉ quotedCharacter character := by
  have number : '\n' ∉ Nat.toDigits 16 character.toNat :=
    newline_not_mem_toDigits (by decide) _
  grind [quotedCharacter]

theorem oneLine_quoted (text : String) : OneLine (quoted text) := by
  have letters : '\n' ∉ text.toList.flatMap quotedCharacter := by
    intro member
    obtain ⟨character, _, found⟩ := List.mem_flatMap.mp member
    exact newline_not_mem_quotedCharacter character found
  rw [quoted, oneLine_ofList]
  simp [letters]

end Text

/-! ## Floating-point numbers -/

namespace Floating

variable {digits : List Char}

theorem newline_not_mem_positional (unbroken : '\n' ∉ digits) (point : Int) :
    '\n' ∉ positional digits point := by
  have before (places : Nat) : '\n' ∉ digits.take places :=
    fun member => unbroken (List.mem_of_mem_take member)
  have behind (places : Nat) : '\n' ∉ digits.drop places :=
    fun member => unbroken (List.mem_of_mem_drop member)
  grind [positional]

theorem newline_not_mem_scientific
    (unbroken : '\n' ∉ digits) (plusSign : Bool) (exponent : Int) :
    '\n' ∉ scientific plusSign digits exponent := by
  have power : '\n' ∉ (toString exponent).toList := Text.oneLine_int exponent
  cases digits with
  | nil => grind [scientific]
  | cons first rest =>
      cases rest with
      | nil => grind [scientific]
      | cons second rest => grind [scientific]

theorem Layout.oneLine_render (layout : Layout) (format : Format) (bits : Nat) :
    Text.OneLine (layout.render format bits) := by
  rw [render]
  cases format.value bits with
  | notANumber => exact (by decide : Text.OneLine "NaN")
  | infinite negative =>
      cases negative
      · exact (by decide : Text.OneLine "inf")
      · exact (by decide : Text.OneLine "-inf")
  | finite negative significand exponent =>
      have sign : Text.OneLine (if negative then "-" else "") := by
        cases negative <;> decide
      dsimp only
      split
      · exact Text.oneLine_append.mpr ⟨sign, by decide⟩
      · have digits (number : Nat) : '\n' ∉ Nat.toDigits 10 number :=
          Text.newline_not_mem_toDigits (by decide) number
        refine Text.oneLine_append.mpr ⟨sign, Text.oneLine_ofList.mpr ?_⟩
        split
        · exact newline_not_mem_positional (digits _) _
        · exact newline_not_mem_scientific (digits _) _ _

end Floating

/-! ## Literals and handles -/

theorem Literal.oneLine_text (value : Literal) : Text.OneLine value.text := by
  cases value with
  | int32 value => exact Text.oneLine_int value.toInt
  | int64 value => exact Text.oneLine_append.mpr ⟨Text.oneLine_int value.toInt, by decide⟩
  | float32 bits =>
      exact Text.oneLine_append.mpr ⟨Floating.Layout.oneLine_render _ _ _, by decide⟩
  | float64 bits => exact Floating.Layout.oneLine_render _ _ _
  | string value => exact Text.oneLine_quoted value

theorem Handle.oneLine_text (handle : Handle) : Text.OneLine handle.text :=
  Text.oneLine_append.mpr ⟨by decide, Text.oneLine_nat handle.slot⟩

theorem Opcode.oneLine_mnemonic (opcode : Opcode) : Text.OneLine opcode.mnemonic := by
  cases opcode <;> decide

end BytecodePatch
