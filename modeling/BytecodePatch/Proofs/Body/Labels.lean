import BytecodePatch.Proofs.Body.Listing

/-!
# Labels in listings

The targets of code are the live instructions that some instruction refers to. Their labels
are numbered from zero in program order, and the number of a label is all that a listing shows
of a handle: a target stands behind its own label, and a reference is the label of its target.

What is left of the history of code in a listing is what is left in the image. Bodies with the
same image have the same listing.
-/

namespace BytecodePatch

/-! ## Numbers of labels -/

namespace Code

/-- Some instruction refers to the handle. -/
def IsTarget (code : Code) (handle : Handle) : Prop :=
  ∃ line ∈ code.lines, handle ∈ line.refs

instance (code : Code) (handle : Handle) : Decidable (code.IsTarget handle) :=
  inferInstanceAs (Decidable (∃ line ∈ code.lines, handle ∈ line.refs))

/-- The live handles that are referred to, in program order. -/
def targets (code : Code) : List Handle :=
  code.handles.filter code.IsTarget

theorem labelled_eq_targets (code : Code) : code.labelled = code.targets := by
  rw [labelled, targets]
  refine List.filter_congr ?_
  intro handle _
  rw [Bool.eq_iff_iff, decide_eq_true_iff, List.contains_iff_mem, List.mem_flatMap]
  rfl

/-- The targets are numbered from zero in program order, and nothing else is referred to. -/
structure Numbers (code : Code) (number : Handle → Nat) : Prop where
  consecutive : code.targets.map number = List.range code.targets.length
  referred : ∀ line ∈ code.lines, line.refs ⊆ code.targets

theorem Sound.numbers {code : Code} (sound : code.Sound) :
    code.Numbers code.targets.idxOf where
  consecutive := by
    have distinct : code.targets.Nodup := sound.linked.nodup_handles.filter _
    apply List.ext_getElem
    · rw [List.length_map, List.length_range]
    · intro place inside _
      rw [List.length_map] at inside
      rw [List.getElem_map, List.getElem_range, distinct.idxOf_getElem place inside]
  referred := by
    intro line member
    rw [← labelled_eq_targets]
    exact sound.refs_subset_labelled member

end Code

/-! ## Texts with numbers of labels -/

namespace Listing

variable (program : Program) (palette : Palette)

/-- The text of an operand that refers to labels by number. -/
def numberedOperand : Operand Nat → String
  | .none => ""
  | .literal (.string value) => palette.string ++ Text.quoted value ++ palette.reset
  | .literal value => value.text
  | .symbol value => palette.symbol ++ program.nameOf value ++ palette.reset
  | .localSlot index => toString index
  | .argument index => toString index
  | .target number => labelText palette number
  | .targets numbers =>
      palette.muted ++ "(" ++ palette.reset ++
        String.intercalate ", " (numbers.map (labelText palette)) ++
        palette.muted ++ ")" ++ palette.reset

/-- The line of a label, where there is one. -/
def labelLine (label : Option Nat) : String :=
  match label with
  | some number => labelText palette number ++ ":\n"
  | none => ""

/-- The line of an instruction that refers to labels by number. -/
def numberedLine (width position : Nat) (instr : Instr Nat) : String :=
  let operand := numberedOperand program palette instr.operand
  "  " ++ palette.muted ++ paddedNumber width position ++ palette.reset ++ "  " ++
    instr.opcode.mnemonic ++ (if operand = "" then "" else " " ++ operand) ++ "\n"

variable {labels : List Handle} {handle : Handle}

/-- What is among the labels has its place there as its number. -/
theorem idxOf?_of_mem (labelled : handle ∈ labels) :
    labels.idxOf? handle = some (labels.idxOf handle) := by
  obtain ⟨number, found⟩ := Option.isSome_iff_exists.mp (List.isSome_idxOf?.mpr labelled)
  rw [List.idxOf_eq_getD_idxOf?, found, Option.getD_some]

theorem refText_of_mem (labelled : handle ∈ labels) :
    refText palette labels handle = labelText palette (labels.idxOf handle) := by
  rw [refText, idxOf?_of_mem labelled]

theorem operandText_eq_numbered {operand : Operand Handle} (labelled : operand.refs ⊆ labels) :
    operandText program palette labels operand =
      numberedOperand program palette (operand.map labels.idxOf) := by
  cases operand with
  | target handle => exact refText_of_mem palette (labelled List.mem_cons_self)
  | targets handles =>
      have texts :
          handles.map (refText palette labels) =
            (handles.map labels.idxOf).map (labelText palette) := by
        rw [List.map_map]
        exact List.map_congr_left fun handle member => refText_of_mem palette (labelled member)
      simp only [Operand.map, operandText, numberedOperand, texts]
  | literal value => cases value <;> rfl
  | _ => rfl

theorem lineText_eq_numbered (width position : Nat) {line : Line} (labelled : line.refs ⊆ labels) :
    lineText program palette labels width position line =
      labelLine palette (labels.idxOf? line.handle) ++
        numberedLine program palette width position (line.instr.map labels.idxOf) := by
  have operand := operandText_eq_numbered program palette labelled
  dsimp only [lineText, numberedLine, Instr.map]
  rw [operand]
  cases labels.idxOf? line.handle <;> simp only [labelLine, String.append_assoc]

end Listing

namespace Body

variable {body other loaded : Body}

/-- The label of a handle in a listing, if it is a target. -/
def label? (body : Body) (number : Handle → Nat) (handle : Handle) : Option Nat :=
  if body.code.IsTarget handle then some (number handle) else none

/-- A listing has a line for each instruction in program order, with the numbers of labels for
references, and before it the line of its own label if it is a target. -/
def ShowsNumbers (body : Body) (number : Handle → Nat) : Prop :=
  ∀ program palette,
    body.listing program palette =
      String.join (body.code.lines.zipIdx.map fun (line, position) =>
        Listing.labelLine palette (body.label? number line.handle) ++
          Listing.numberedLine program palette (positionWidth body.code.length) position
            (line.instr.map number))

theorem showsNumbers (sound : body.code.Sound) :
    body.ShowsNumbers body.code.targets.idxOf := by
  intro program palette
  rw [listing]
  refine congrArg String.join (List.map_congr_left ?_)
  rintro ⟨line, position⟩ member
  have lineMember : line ∈ body.code.lines := List.fst_mem_of_mem_zipIdx member
  have label :
      body.code.targets.idxOf? line.handle = body.label? body.code.targets.idxOf line.handle := by
    have live : line.handle ∈ body.code.handles := List.mem_map_of_mem lineMember
    rw [label?]
    split
    · rename_i target
      exact Listing.idxOf?_of_mem (List.mem_filter.mpr ⟨live, decide_eq_true target⟩)
    · rename_i other
      apply List.idxOf?_eq_none_iff.mpr
      exact fun target => other (of_decide_eq_true (List.mem_filter.mp target).2)
  dsimp only
  rw [Code.labelled_eq_targets,
    Listing.lineText_eq_numbered program palette _ _ (sound.numbers.referred line lineMember),
    label]

/-! ## Listings and images -/

/-- Bodies with the same image have the same listing. -/
theorem listing_eq_of_flatten_eq
    {image : Image}
    (sound : body.code.Sound) (otherSound : other.code.Sound)
    (small : body.code.length ≤ UInt32.size)
    (flattened : body.flatten = .ok image) (otherFlattened : other.flatten = .ok image)
    (program : Program) (palette : Palette) :
    other.listing program palette = body.listing program palette := by
  obtain rfl := Except.ok.inj ((flatten_of_sound sound).symm.trans flattened)
  have same : other.image = body.image :=
    Except.ok.inj ((flatten_of_sound otherSound).symm.trans otherFlattened)
  have length : other.code.length = body.code.length := by
    have instrs := congrArg Image.length same
    simpa [Image.length, image, otherSound.linked.length_eq, sound.linked.length_eq] using instrs
  obtain ⟨loaded, loads⟩ : ∃ loaded, body.image.load 0 = .ok loaded :=
    ⟨_, Image.load_eq_ok_iff.mpr ⟨loadable_image sound, rfl⟩⟩
  calc
    other.listing program palette = loaded.listing program palette := by
      rw [← same] at loads
      rw [listing_of_load otherSound (length ▸ small) loads]
    _ = body.listing program palette := listing_of_load sound small loads program palette

end Body

end BytecodePatch
