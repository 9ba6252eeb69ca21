import BytecodePatch.Proofs.Body.Labels
import BytecodePatch.Proofs.Text.Decimal
import BytecodePatch.Proofs.Text.Lines

/-!
# Positions in listings

A listing has a row for each instruction, and the rows have the positions of their instructions
in one column. The column can be found in the text again, line by line: a row is indented and
the line of a label is not, and behind the indentation stand the digits of the position. This
needs names of one line, because a name is shown as it is.
-/

namespace BytecodePatch

/-- Styles that leave the shape of a listing alone: none has a line break, no label is indented
by its style, and no digit comes between a position and the gap behind it. -/
structure Palette.KeepsShape (palette : Palette) : Prop where
  symbol : Text.OneLine palette.symbol
  label : Text.OneLine palette.label
  string : Text.OneLine palette.string
  muted : Text.OneLine palette.muted
  reset : Text.OneLine palette.reset
  unindented : palette.label.toList.head? ≠ some ' '
  ended : palette.reset.toList.head?.any Char.isDigit = false

theorem Palette.keepsShape_plain : Palette.plain.KeepsShape :=
  ⟨by decide, by decide, by decide, by decide, by decide, by decide, by decide⟩

theorem Palette.keepsShape_terminal : Palette.terminal.KeepsShape :=
  ⟨by decide, by decide, by decide, by decide, by decide, by decide, by decide⟩

/-- The symbol of an instruction, if it has one, has a name of one line. -/
def Instr.HasOneLineName (program : Program) (instr : Instr Handle) : Prop :=
  ∀ symbol ∈ instr.symbol?, Text.OneLine (program.nameOf symbol)

instance (program : Program) (instr : Instr Handle) :
    Decidable (instr.HasOneLineName program) :=
  inferInstanceAs (Decidable (∀ symbol ∈ instr.symbol?, _))

namespace Listing

/-! ## Rows -/

variable (program : Program) (palette : Palette) (labels : List Handle)

/-- What stands before the position in the row of an instruction. -/
def margin : String :=
  "  " ++ palette.muted

/-- What stands behind the position in the row of an instruction. -/
def description (instr : Instr Handle) : String :=
  let operand := operandText program palette labels instr.operand
  palette.reset ++ "  " ++ instr.opcode.mnemonic ++ (if operand = "" then "" else " " ++ operand)

/-- The row of an instruction with a text in the column of positions. -/
def row (field : String) (instr : Instr Handle) : String :=
  margin palette ++ field ++ description program palette labels instr

/-- The lines of an instruction: its row, behind the line of its label if it has one. -/
def rows (field : String) (line : Line) : String :=
  labelLine palette (labels.idxOf? line.handle) ++ row program palette labels field line.instr ++
    "\n"

theorem lineText_eq_rows (width position : Nat) (line : Line) :
    lineText program palette labels width position line =
      rows program palette labels (paddedNumber width position) line := by
  dsimp only [lineText, rows, row, margin, description]
  cases labels.idxOf? line.handle <;> simp only [labelLine, String.append_assoc]

/-! ## Reading a column -/

/-- The digits behind the margin of a line. A line without the margin has no position. -/
def positionOf? (line : List Char) : Option String :=
  let margin := (margin palette).toList
  if margin.isPrefixOf line then
    some (String.ofList ((line.drop margin.length).takeWhile Char.isDigit))
  else none

/-- The positions in the lines of a text. -/
def positionsOf (text : String) : List String :=
  (text.toList.splitOn '\n').filterMap (positionOf? palette)

theorem positionsOf_line {line : String} (oneLine : Text.OneLine line) (rest : String) :
    positionsOf palette (line ++ "\n" ++ rest) =
      (positionOf? palette line.toList).toList ++ positionsOf palette rest := by
  have split :
      (line ++ "\n" ++ rest).toList.splitOn '\n' =
        line.toList :: rest.toList.splitOn '\n' := by
    rw [String.append_assoc, String.toList_append, String.toList_append]
    exact List.splitOn_append_cons_self_of_not_mem oneLine _
  rw [positionsOf, split, List.filterMap_cons, positionsOf]
  cases positionOf? palette line.toList <;> rfl

variable {palette}

/-- A line of a label has no position. -/
theorem positionOf?_label (keepsShape : palette.KeepsShape) (number : Nat) :
    positionOf? palette (labelText palette number ++ ":").toList = none := by
  have unindented : (labelText palette number ++ ":").toList.head? ≠ some ' ' := by
    have start := keepsShape.unindented
    rw [labelText]
    simp only [String.toList_append]
    cases found : palette.label.toList with
    | nil => simp
    | cons first rest => simpa [found] using start
  rw [positionOf?, if_neg]
  intro indented
  obtain ⟨rest, parts⟩ := List.isPrefixOf_iff_prefix.mp indented
  rw [← parts] at unindented
  exact unindented (by simp [margin])

variable {field : String} {instr : Instr Handle}

/-- The position of a row is what stands in its column. -/
theorem positionOf?_row
    (keepsShape : palette.KeepsShape)
    (digits : ∀ character ∈ field.toList, character.isDigit = true) :
    positionOf? palette (row program palette labels field instr).toList = some field := by
  have ended :
      (description program palette labels instr).toList.takeWhile Char.isDigit = [] := by
    have reset := keepsShape.ended
    simp only [description, String.toList_append]
    cases found : palette.reset.toList with
    | nil => simp
    | cons first rest =>
        rw [found] at reset
        have solid : ¬first.isDigit = true := by simpa using reset
        exact List.takeWhile_cons_of_neg solid
  have parts :
      (row program palette labels field instr).toList =
        (margin palette).toList ++
          (field.toList ++ (description program palette labels instr).toList) := by
    simp only [row, String.toList_append, List.append_assoc]
  have indented :
      (margin palette).toList.isPrefixOf (row program palette labels field instr).toList = true := by
    rw [parts]
    exact List.isPrefixOf_iff_prefix.mpr (List.prefix_append _ _)
  rw [positionOf?, if_pos indented, parts, List.drop_left, List.takeWhile_append_of_pos digits,
    ended, List.append_nil, String.ofList_toList]

/-! ## Rows of one line -/

theorem oneLine_labelText (keepsShape : palette.KeepsShape) (number : Nat) :
    Text.OneLine (labelText palette number) := by
  simp only [labelText, Text.oneLine_append]
  exact ⟨⟨⟨keepsShape.label, by decide⟩, Text.oneLine_nat number⟩, keepsShape.reset⟩

theorem oneLine_refText (keepsShape : palette.KeepsShape) (handle : Handle) :
    Text.OneLine (refText palette labels handle) := by
  rw [refText]
  split
  · exact oneLine_labelText keepsShape _
  · exact handle.oneLine_text

theorem oneLine_operandText
    (keepsShape : palette.KeepsShape) (named : instr.HasOneLineName program) :
    Text.OneLine (operandText program palette labels instr.operand) := by
  obtain ⟨opcode, operand⟩ := instr
  cases operand with
  | none => exact (by decide : Text.OneLine "")
  | literal value =>
      cases value with
      | string value =>
          simp only [operandText, Text.oneLine_append]
          exact ⟨⟨keepsShape.string, Text.oneLine_quoted value⟩, keepsShape.reset⟩
      | _ => exact Literal.oneLine_text _
  | symbol value =>
      simp only [operandText, Text.oneLine_append]
      exact ⟨⟨keepsShape.symbol, named value rfl⟩, keepsShape.reset⟩
  | localSlot index => exact Text.oneLine_nat index.toNat
  | argument index => exact Text.oneLine_nat index.toNat
  | target handle => exact oneLine_refText labels keepsShape handle
  | targets handles =>
      have inner :
          Text.OneLine (String.intercalate ", " (handles.map (refText palette labels))) := by
        apply Text.oneLine_intercalate (by decide)
        intro text member
        obtain ⟨handle, _, rfl⟩ := List.mem_map.mp member
        exact oneLine_refText labels keepsShape handle
      simp only [operandText, Text.oneLine_append]
      exact ⟨⟨⟨⟨⟨⟨keepsShape.muted, by decide⟩, keepsShape.reset⟩, inner⟩, keepsShape.muted⟩,
        by decide⟩, keepsShape.reset⟩

theorem oneLine_row
    (keepsShape : palette.KeepsShape) (named : instr.HasOneLineName program)
    (digits : ∀ character ∈ field.toList, character.isDigit = true) :
    Text.OneLine (row program palette labels field instr) := by
  have fieldOneLine : Text.OneLine field := fun member =>
    absurd (digits _ member) (by decide)
  have operand := oneLine_operandText program labels keepsShape named
  have operandOneLine :
      Text.OneLine
        (if operandText program palette labels instr.operand = "" then ""
        else " " ++ operandText program palette labels instr.operand) := by
    split
    · decide
    · exact Text.oneLine_append.mpr ⟨by decide, operand⟩
  simp only [row, margin, description, Text.oneLine_append]
  exact ⟨⟨⟨by decide, keepsShape.muted⟩, fieldOneLine⟩,
    ⟨⟨keepsShape.reset, by decide⟩, instr.opcode.oneLine_mnemonic⟩, operandOneLine⟩

/-- The first position of a text that starts with the lines of an instruction is that of the
instruction. -/
theorem positionsOf_rows
    (keepsShape : palette.KeepsShape) {line : Line} (named : line.instr.HasOneLineName program)
    (digits : ∀ character ∈ field.toList, character.isDigit = true) (rest : String) :
    positionsOf palette (rows program palette labels field line ++ rest) =
      field :: positionsOf palette rest := by
  have fromRow :
      positionsOf palette (row program palette labels field line.instr ++ "\n" ++ rest) =
        field :: positionsOf palette rest := by
    rw [positionsOf_line palette (oneLine_row program labels keepsShape named digits),
      positionOf?_row program labels keepsShape digits]
    rfl
  rw [rows]
  cases labels.idxOf? line.handle with
  | none => rwa [labelLine, String.empty_append]
  | some number =>
      have labelOneLine : Text.OneLine (labelText palette number ++ ":") :=
        Text.oneLine_append.mpr ⟨oneLine_labelText keepsShape number, by decide⟩
      have lines :
          labelText palette number ++ ":\n" ++ row program palette labels field line.instr ++
              "\n" ++ rest =
            labelText palette number ++ ":" ++ "\n" ++
              (row program palette labels field line.instr ++ "\n" ++ rest) := by
        simp only [String.append_assoc]
        rfl
      rw [labelLine, lines, positionsOf_line palette labelOneLine,
        positionOf?_label keepsShape, fromRow]
      rfl

/-- The positions of a text that consists of the lines of instructions are what stands in
their column. -/
theorem positionsOf_join
    (keepsShape : palette.KeepsShape) {fields : List String} {lines : List Line}
    (lengths : fields.length = lines.length)
    (named : ∀ line ∈ lines, line.instr.HasOneLineName program)
    (digits : ∀ field ∈ fields, ∀ character ∈ field.toList, character.isDigit = true) :
    positionsOf palette (String.join (List.zipWith (rows program palette labels) fields lines)) =
      fields := by
  induction fields generalizing lines with
  | nil => simp [positionsOf, positionOf?, margin]
  | cons field fields inductionHypothesis =>
      cases lines with
      | nil => cases lengths
      | cons line lines =>
          have others :=
            inductionHypothesis (Nat.succ.inj lengths)
              (fun other member => named other (List.mem_cons_of_mem line member))
              (fun other member => digits other (List.mem_cons_of_mem field member))
          rw [List.zipWith_cons_cons, String.join_cons,
            positionsOf_rows program labels keepsShape (named line List.mem_cons_self)
              (digits field List.mem_cons_self),
            others]

end Listing

/-! ## Listings -/

namespace Body

variable {body : Body}

/-- A listing with the given texts in the column of positions. -/
def listingWith
    (body : Body) (program : Program) (palette : Palette) (fields : List String) : String :=
  String.join
    (List.zipWith (Listing.rows program palette body.code.labelled) fields body.code.lines)

/-- A listing has the positions of its instructions in the column. -/
theorem listing_eq_listingWith
    (linked : body.code.WellLinked) (program : Program) (palette : Palette) :
    body.listing program palette =
      body.listingWith program palette (positionColumn body.code.lines.length) := by
  rw [listing, listingWith, linked.length_eq]
  refine congrArg String.join ?_
  apply List.ext_getElem
  · simp [positionColumn]
  · intro position _ _
    simp [positionColumn, Listing.lineText_eq_rows]

/-- Every symbol that the code refers to has a name of one line. -/
def HasOneLineNames (body : Body) (program : Program) : Prop :=
  ∀ line ∈ body.code.lines, line.instr.HasOneLineName program

instance (body : Body) (program : Program) : Decidable (body.HasOneLineNames program) :=
  inferInstanceAs (Decidable (∀ line ∈ body.code.lines, _))

/-- The positions can be read in the listing, line by line. -/
theorem positionsOf_listing
    {program : Program} {palette : Palette}
    (linked : body.code.WellLinked) (keepsShape : palette.KeepsShape)
    (named : body.HasOneLineNames program) :
    Listing.positionsOf palette (body.listing program palette) =
      positionColumn body.code.lines.length := by
  have lengths :
      (positionColumn body.code.lines.length).length = body.code.lines.length := by
    rw [positionColumn, List.length_map, List.length_range]
  rw [listing_eq_listingWith linked]
  exact Listing.positionsOf_join program _ keepsShape lengths named
    (isPositionColumn_positionColumn _).digits

end Body

/-- The listing of a method with a body is that of the body under a heading. -/
theorem Program.exists_heading
    {program : Program} {place : MemberPlace} {method : MethodDecl} {body : Body}
    (found : program.method? place = some method) (hasBody : method.body = some body)
    (palette : Palette) :
    ∃ heading,
      program.methodListing? place palette = some (heading ++ body.listing program palette) := by
  cases owner : program.type? place.owner with
  | none => simp [Program.method?, owner] at found
  | some type =>
      refine ⟨method.returnType ++ " " ++ palette.symbol ++ type.name ++ "::" ++
        method.paramSignature ++ palette.reset ++ "\n", ?_⟩
      simp [Program.methodListing?, owner, found, hasBody]

end BytecodePatch
