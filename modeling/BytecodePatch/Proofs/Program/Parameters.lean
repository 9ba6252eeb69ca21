import BytecodePatch.Program.Signature
import BytecodePatch.Proofs.Text.Blank
import Mathlib.Data.List.Forall2

/-!
# Parameter lists

Parameters are split at the commas outside brackets. A parameter whose brackets are nested and
whose commas stand within them leaves the depth of brackets where it was, so a list of such
parameters comes back when they are joined with commas, whatever blanks stand around each of
them. Any other text is cut as well, in one way only, and no piece of it is empty or has a
blank at an end.
-/

namespace BytecodePatch

/-- A text that is not empty and has no blank at either end. -/
def Text.Solid (text : String) : Prop :=
  text ≠ "" ∧ Text.trimmed text = text

instance (text : String) : Decidable (Text.Solid text) :=
  inferInstanceAs (Decidable (_ ∧ _))

theorem Text.Solid.toList_ne_nil {text : String} (solid : Text.Solid text) :
    text.toList ≠ [] := by
  simpa using solid.1

theorem Text.Solid.trim_toList {text : String} (solid : Text.Solid text) :
    Text.trim text.toList = text.toList := by
  have same := congrArg String.toList solid.2
  rwa [Text.trimmed, String.toList_ofList] at same

/-- A parameter with blanks on both sides. -/
def Text.Padded (param : String) (part : List Char) : Prop :=
  ∃ left right,
    (∀ character ∈ left, Text.isBlank character = true) ∧
      (∀ character ∈ right, Text.isBlank character = true) ∧
        part = left ++ param.toList ++ right

namespace Signature

/-! ## Cuts -/

/-- The depth of brackets after a text. -/
def depthAfterAll (depth : Nat) (text : List Char) : Nat :=
  text.foldl depthAfter depth

/-- After some open brackets, no comma of a text stands outside brackets. -/
def Unbroken : (depth : Nat) → List Char → Prop
  | _, [] => True
  | depth, character :: rest =>
      ¬(character = ',' ∧ depth = 0) ∧ Unbroken (depthAfter depth character) rest

/-- After some open brackets, parts of a text are those between its commas outside brackets:
no part has such a comma, and all brackets are closed before the comma after a part. -/
def CutFrom : (depth : Nat) → List (List Char) → Prop
  | _, [] => False
  | depth, [part] => Unbroken depth part
  | depth, part :: next :: parts =>
      Unbroken depth part ∧ depthAfterAll depth part = 0 ∧ CutFrom 0 (next :: parts)

/-- A text without a comma outside brackets is the start of a piece. -/
theorem pieces_append :
    ∀ {text : List Char} {depth : Nat} {rest piece : List Char} {others : List (List Char)},
      Unbroken depth text → pieces (depthAfterAll depth text) rest = piece :: others →
        pieces depth (text ++ rest) = (text ++ piece) :: others
  | [], _, _, _, _, _, restPieces => restPieces
  | _ :: _, _, _, _, _, ⟨noCut, unbroken⟩, restPieces => by
      rw [List.cons_append, pieces, if_neg noCut, pieces_append unbroken restPieces]
      rfl

/-- Cut parts are the pieces of what joining them with commas gives. -/
theorem pieces_intercalate :
    ∀ {depth : Nat} {parts : List (List Char)},
      CutFrom depth parts → pieces depth ([','].intercalate parts) = parts
  | depth, [part], unbroken => by
      have last : pieces (depthAfterAll depth part) [] = [[]] := rfl
      have whole := pieces_append unbroken last
      simpa using whole
  | depth, part :: next :: parts, ⟨unbroken, closed, cut⟩ => by
      have rest :
          pieces (depthAfterAll depth part) (',' :: [','].intercalate (next :: parts)) =
            [] :: next :: parts := by
        rw [closed, pieces, if_pos ⟨rfl, rfl⟩, pieces_intercalate cut]
      rw [List.intercalate_cons_cons, List.append_assoc, List.singleton_append,
        pieces_append unbroken rest, List.append_nil]

/-- At no depth, a comma cuts. -/
theorem CutFrom.cut :
    ∀ {parts : List (List Char)},
      CutFrom 0 parts →
        CutFrom 0 ([] :: parts) ∧
          [','].intercalate ([] :: parts) = ',' :: [','].intercalate parts
  | _ :: _, cutFrom => ⟨⟨trivial, rfl, cutFrom⟩, by simp⟩

/-- Any other character stays in its part. -/
theorem CutFrom.keep
    {character : Char} {depth : Nat} (noCut : ¬(character = ',' ∧ depth = 0)) :
    ∀ {part : List Char} {parts : List (List Char)},
      CutFrom (depthAfter depth character) (part :: parts) →
        CutFrom depth ((character :: part) :: parts) ∧
          [','].intercalate ((character :: part) :: parts) =
            character :: [','].intercalate (part :: parts)
  | _, [], unbroken => ⟨⟨noCut, unbroken⟩, by simp⟩
  | _, _ :: _, ⟨unbroken, closed, cutFrom⟩ =>
      ⟨⟨⟨noCut, unbroken⟩, closed, cutFrom⟩, by simp⟩

/-- A text is its pieces, joined with the commas that it is cut at. -/
theorem cutFrom_pieces (depth : Nat) (text : List Char) :
    CutFrom depth (pieces depth text) ∧ [','].intercalate (pieces depth text) = text := by
  induction text generalizing depth with
  | nil => exact ⟨trivial, rfl⟩
  | cons character rest inductionHypothesis =>
      rw [pieces]
      split
      · rename_i cut
        obtain ⟨rfl, rfl⟩ := cut
        obtain ⟨cutFrom, joined⟩ := inductionHypothesis 0
        rw [cutFrom.cut.2, joined]
        exact ⟨cutFrom.cut.1, rfl⟩
      · rename_i noCut
        obtain ⟨cutFrom, joined⟩ := inductionHypothesis (depthAfter depth character)
        split
        · rename_i none
          rw [none] at cutFrom
          exact cutFrom.elim
        · rename_i part parts found
          rw [found] at cutFrom joined
          rw [(cutFrom.keep noCut).2, joined]
          exact ⟨(cutFrom.keep noCut).1, rfl⟩

/-- The pieces of a text are the only parts that it can be cut into. -/
theorem pieces_eq_iff {depth : Nat} {text : List Char} {parts : List (List Char)} :
    pieces depth text = parts ↔ CutFrom depth parts ∧ [','].intercalate parts = text := by
  constructor
  · rintro rfl
    exact cutFrom_pieces depth text
  · rintro ⟨cutFrom, rfl⟩
    exact pieces_intercalate cutFrom

/-! ## Nested brackets -/

/-- After some open brackets, a text closes only open ones and leaves none open, and its
commas stand within brackets. -/
def NestedFrom : (opened : Nat) → List Char → Prop
  | opened, [] => opened = 0
  | opened, character :: rest =>
      if character = '<' ∨ character = '[' then NestedFrom (opened + 1) rest
      else if character = '>' ∨ character = ']' then 0 < opened ∧ NestedFrom (opened - 1) rest
      else (character = ',' → 0 < opened) ∧ NestedFrom opened rest

instance decidableNestedFrom :
    (opened : Nat) → (text : List Char) → Decidable (NestedFrom opened text)
  | opened, [] => inferInstanceAs (Decidable (opened = 0))
  | opened, _ :: rest =>
      have := decidableNestedFrom (opened + 1) rest
      have := decidableNestedFrom (opened - 1) rest
      have := decidableNestedFrom opened rest
      inferInstanceAs (Decidable (ite _ _ _))

/-- In a text with nested brackets no comma cuts, and all brackets are closed after it. -/
theorem NestedFrom.unbroken :
    ∀ {text : List Char} {opened : Nat},
      NestedFrom opened text → Unbroken opened text ∧ depthAfterAll opened text = 0
  | [], _, nested => ⟨trivial, nested⟩
  | character :: text, opened, nested => by
      have noCut : ¬(character = ',' ∧ opened = 0) := by
        rintro ⟨rfl, rfl⟩
        exact absurd (nested.1 rfl) (Nat.lt_irrefl 0)
      have onwards : NestedFrom (depthAfter opened character) text := by
        unfold NestedFrom at nested
        unfold depthAfter
        split at nested
        · rename_i opens
          rwa [if_pos opens]
        · rename_i opensNot
          rw [if_neg opensNot]
          split at nested
          · rename_i closes
            rw [if_pos closes]
            exact nested.2
          · rename_i closesNot
            rw [if_neg closesNot]
            exact nested.2
      exact ⟨⟨noCut, onwards.unbroken.1⟩, onwards.unbroken.2⟩

/-! ## Blanks -/

/-- A blank is neither a bracket nor a comma. -/
theorem depthAfter_of_isBlank
    {character : Char} (blank : Text.isBlank character = true) (depth : Nat) :
    character ≠ ',' ∧ depthAfter depth character = depth := by
  have other : character ∉ ['<', '[', '>', ']', ','] := by
    intro inside
    simp only [List.mem_cons, List.not_mem_nil, or_false] at inside
    rcases inside with rfl | rfl | rfl | rfl | rfl <;> exact absurd blank (by decide)
  simp only [List.mem_cons, List.not_mem_nil, or_false, not_or] at other
  obtain ⟨notLess, notOpen, notGreater, notClose, notComma⟩ := other
  refine ⟨notComma, ?_⟩
  rw [depthAfter, if_neg (not_or.mpr ⟨notLess, notOpen⟩),
    if_neg (not_or.mpr ⟨notGreater, notClose⟩)]

theorem unbroken_of_isBlank
    {text : List Char} (blank : ∀ character ∈ text, Text.isBlank character = true)
    (depth : Nat) :
    Unbroken depth text ∧ depthAfterAll depth text = depth := by
  induction text with
  | nil => exact ⟨trivial, rfl⟩
  | cons character text inductionHypothesis =>
      obtain ⟨first, rest⟩ := List.forall_mem_cons.mp blank
      obtain ⟨notComma, unchanged⟩ := depthAfter_of_isBlank first depth
      obtain ⟨unbroken, same⟩ := inductionHypothesis rest
      rw [depthAfterAll, List.foldl_cons, Unbroken, unchanged]
      exact ⟨⟨fun cut => notComma cut.1, unbroken⟩, same⟩

theorem depthAfterAll_append (depth : Nat) (left right : List Char) :
    depthAfterAll depth (left ++ right) = depthAfterAll (depthAfterAll depth left) right :=
  List.foldl_append

theorem unbroken_append {left right : List Char} {depth : Nat} :
    Unbroken depth (left ++ right) ↔
      Unbroken depth left ∧ Unbroken (depthAfterAll depth left) right := by
  induction left generalizing depth with
  | nil => exact (iff_of_eq (true_and _)).symm
  | cons character left inductionHypothesis =>
      rw [List.cons_append, Unbroken, inductionHypothesis, Unbroken, and_assoc]
      rfl

/-- Blanks around a parameter with nested brackets cut nothing. -/
theorem unbroken_of_padded
    {param : String} {part : List Char}
    (nested : NestedFrom 0 param.toList) (padded : Text.Padded param part) :
    Unbroken 0 part ∧ depthAfterAll 0 part = 0 := by
  obtain ⟨left, right, leftBlank, rightBlank, rfl⟩ := padded
  obtain ⟨leftUnbroken, leftDepth⟩ := unbroken_of_isBlank leftBlank 0
  obtain ⟨unbroken, depth⟩ := nested.unbroken
  obtain ⟨rightUnbroken, rightDepth⟩ := unbroken_of_isBlank rightBlank 0
  have before : depthAfterAll 0 (left ++ param.toList) = 0 := by
    rw [depthAfterAll_append, leftDepth, depth]
  constructor
  · rw [unbroken_append, unbroken_append, leftDepth, before]
    exact ⟨⟨leftUnbroken, unbroken⟩, rightUnbroken⟩
  · rw [depthAfterAll_append, before, rightDepth]

theorem cutFrom_of_unbroken :
    ∀ {parts : List (List Char)},
      parts ≠ [] → (∀ part ∈ parts, Unbroken 0 part ∧ depthAfterAll 0 part = 0) →
        CutFrom 0 parts
  | [], nonempty, _ => nonempty rfl
  | [part], _, unbroken => (unbroken part List.mem_cons_self).1
  | part :: next :: parts, _, unbroken => by
      obtain ⟨first, rest⟩ := List.forall_mem_cons.mp unbroken
      exact ⟨first.1, first.2, cutFrom_of_unbroken (List.cons_ne_nil next parts) rest⟩

/-! ## Splitting -/

theorem trim_of_padded
    {param : String} {part : List Char} (solid : Text.Solid param)
    (padded : Text.Padded param part) : Text.trim part = param.toList := by
  obtain ⟨left, right, leftBlank, rightBlank, rfl⟩ := padded
  exact Text.trim_padded leftBlank rightBlank solid.trim_toList solid.toList_ne_nil

theorem map_trim_of_padded
    {params : List String} {parts : List (List Char)}
    (solid : ∀ param ∈ params, Text.Solid param)
    (padded : List.Forall₂ Text.Padded params parts) :
    parts.map Text.trim = params.map String.toList := by
  induction padded with
  | nil => rfl
  | cons first _ inductionHypothesis =>
      obtain ⟨solidFirst, solidRest⟩ := List.forall_mem_cons.mp solid
      rw [List.map_cons, List.map_cons, trim_of_padded solidFirst first,
        inductionHypothesis solidRest]

theorem cutFrom_of_padded
    {params : List String} {parts : List (List Char)} (nonempty : parts ≠ [])
    (nested : ∀ param ∈ params, NestedFrom 0 param.toList)
    (padded : List.Forall₂ Text.Padded params parts) : CutFrom 0 parts := by
  apply cutFrom_of_unbroken nonempty
  clear nonempty
  induction padded with
  | nil => exact nofun
  | cons first _ inductionHypothesis =>
      obtain ⟨nestedFirst, nestedRest⟩ := List.forall_mem_cons.mp nested
      exact List.forall_mem_cons.mpr
        ⟨unbroken_of_padded nestedFirst first, inductionHypothesis nestedRest⟩

/-- Solid parameters with nested brackets come back from their list, whatever blanks stand
around them. -/
theorem splitParams_padded
    {params : List String} {parts : List (List Char)}
    (solid : ∀ param ∈ params, Text.Solid param)
    (nested : ∀ param ∈ params, NestedFrom 0 param.toList)
    (padded : List.Forall₂ Text.Padded params parts) :
    splitParams ([','].intercalate parts) = params.map String.toList := by
  by_cases empty : parts = []
  · subst empty
    cases padded
    rfl
  have solidTexts :
      ∀ text ∈ params.map String.toList, (!text.isEmpty) = true := by
    intro text inside
    obtain ⟨param, paramInside, rfl⟩ := List.mem_map.mp inside
    simpa using (solid param paramInside).toList_ne_nil
  rw [splitParams, pieces_intercalate (cutFrom_of_padded empty nested padded),
    map_trim_of_padded solid padded, List.filter_eq_self.mpr solidTexts]

theorem splitParams_intercalate
    {params : List String}
    (solid : ∀ param ∈ params, Text.Solid param)
    (nested : ∀ param ∈ params, NestedFrom 0 param.toList) :
    splitParams ([','].intercalate (params.map String.toList)) = params.map String.toList := by
  apply splitParams_padded solid nested
  rw [List.forall₂_map_right_iff, List.forall₂_same]
  exact fun param _ => ⟨[], [], nofun, nofun, by simp⟩

/-- No parameter is empty or has a blank at an end. -/
theorem solid_of_mem_splitParams {inner piece : List Char} (split : piece ∈ splitParams inner) :
    piece ≠ [] ∧
      (∀ character ∈ piece.head?, Text.isBlank character = false) ∧
        ∀ character ∈ piece.getLast?, Text.isBlank character = false := by
  obtain ⟨trimmed, nonempty⟩ := List.mem_filter.mp split
  obtain ⟨part, _, rfl⟩ := List.mem_map.mp trimmed
  exact ⟨by simpa using nonempty, Text.trim_eq_self_iff.mp (Text.trim_trim part)⟩

/-- Splitting takes a list apart into the parameters that were joined, with or without blanks
around them. Whatever the text is, it is cut in the one way that leaves no comma outside
brackets, and no piece that is kept is empty or has a blank at an end. -/
theorem splitting_of_lists :
    (∀ (params : List String) (parts : List (List Char)),
      (∀ param ∈ params, Text.Solid param) →
        (∀ param ∈ params, NestedFrom 0 param.toList) →
          List.Forall₂ Text.Padded params parts →
            splitParams ([','].intercalate parts) = params.map String.toList) ∧
      ∀ inner,
        (∃! parts, CutFrom 0 parts ∧ [','].intercalate parts = inner) ∧
          (∀ parts,
            CutFrom 0 parts ∧ [','].intercalate parts = inner →
              splitParams inner =
                (parts.map Text.trim).filter fun piece => !piece.isEmpty) ∧
            ∀ piece ∈ splitParams inner,
              piece ≠ [] ∧
                (∀ character ∈ piece.head?, Text.isBlank character = false) ∧
                  ∀ character ∈ piece.getLast?, Text.isBlank character = false := by
  refine ⟨fun _ _ solid nested padded => splitParams_padded solid nested padded, ?_⟩
  intro inner
  refine ⟨⟨pieces 0 inner, cutFrom_pieces 0 inner, ?_⟩, ?_, ?_⟩
  · exact fun _ cut => (pieces_eq_iff.mpr cut).symm
  · intro parts cut
    rw [splitParams, pieces_eq_iff.mpr cut]
  · exact fun _ => solid_of_mem_splitParams

/-- Nested arguments, the ranks of arrays, and blanks of several kinds. -/
theorem splitting_of_lists_nested :
    let params := ["Map<K[],List<(A,B)>>", "int[,][]", "größe"]
    let parts := ["Map<K[],List<(A,B)>>\u2003", "\t int[,][]", "\u00A0größe \n"]
    (∀ param ∈ params, Text.Solid param) ∧ (∀ param ∈ params, NestedFrom 0 param.toList) ∧
      List.Forall₂ Text.Padded params (parts.map String.toList) ∧
        splitParams (",".intercalate parts).toList = params.map String.toList ∧
          splitParams " a>,<b,,,[ ,c".toList = ["a>".toList, "<b,,,[ ,c".toList] := by
  intro params parts
  have solid : ∀ param ∈ params, Text.Solid param := by decide
  have nested : ∀ param ∈ params, NestedFrom 0 param.toList := by decide
  have padded : List.Forall₂ Text.Padded params (parts.map String.toList) := by
    refine .cons ⟨[], ['\u2003'], ?_⟩ (.cons ⟨['\t', ' '], [], ?_⟩
      (.cons ⟨['\u00A0'], [' ', '\n'], ?_⟩ .nil))
    all_goals
      simp only [List.forall_mem_cons, List.not_mem_nil, false_imp_iff, implies_true]
      decide
  refine ⟨solid, nested, padded, ?_, by decide⟩
  rw [String.toList_intercalate]
  exact splitting_of_lists.1 params _ solid nested padded

end Signature

end BytecodePatch
