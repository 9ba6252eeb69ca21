import BytecodePatch.Program.Listing
import BytecodePatch.Proofs.Body.Image

/-!
# Listings and names of instructions

A listing shows no handle of sound code: every reference is shown by the label of its target,
and labels are numbered in program order. So code has the same listing under other handles,
and a body the same listing as one that is loaded from its image.
-/

namespace BytecodePatch

/-! ## Code under other handles -/

/-- A line under other handles. -/
def Line.rename (move : Handle → Handle) (line : Line) : Line :=
  ⟨move line.handle, line.instr.map move⟩

/-- Code has the lines of other code under other handles. -/
structure Code.Renamed (code other : Code) (move : Handle → Handle) : Prop where
  lines : other.lines = code.lines.map (Line.rename move)
  injective :
    ∀ first ∈ code.handles, ∀ second ∈ code.handles, move first = move second → first = second

namespace Code.Renamed

variable {code other : Code} {move : Handle → Handle} {among : List Handle} {handle : Handle}

theorem handles (renamed : code.Renamed other move) :
    other.handles = code.handles.map move := by
  simp only [Code.handles, renamed.lines, List.map_map]
  rfl

/-- A handle is among some under its new name exactly if it is under the old one. -/
theorem mem_map_iff
    (renamed : code.Renamed other move) (known : among ⊆ code.handles)
    (live : handle ∈ code.handles) :
    move handle ∈ among.map move ↔ handle ∈ among := by
  constructor
  · intro member
    obtain ⟨first, firstMember, same⟩ := List.mem_map.mp member
    rwa [← renamed.injective first (known firstMember) handle live same]
  · exact List.mem_map_of_mem

/-- New names do not change which of some handles is a given one. -/
theorem idxOf?_map
    (renamed : code.Renamed other move) (known : among ⊆ code.handles)
    (live : handle ∈ code.handles) :
    (among.map move).idxOf? (move handle) = among.idxOf? handle :=
  Code.idxOf?_map fun first member => renamed.injective first (known member) handle live

end Code.Renamed

/-! ## Labels -/

/-- The handles with a label are those that are live and referred to. -/
theorem Code.mem_labelled_iff {code : Code} {handle : Handle} :
    handle ∈ code.labelled ↔
      handle ∈ code.handles ∧ ∃ line ∈ code.lines, handle ∈ line.refs := by
  simp [labelled]

theorem Code.labelled_subset (code : Code) : code.labelled ⊆ code.handles :=
  fun _ member => (mem_labelled_iff.mp member).1

/-- Every reference of sound code has a label. -/
theorem Code.Sound.refs_subset_labelled
    {code : Code} (sound : code.Sound) {line : Line} (member : line ∈ code.lines) :
    line.refs ⊆ code.labelled :=
  fun ref refMember =>
    mem_labelled_iff.mpr ⟨sound.live line member ref refMember, line, member, refMember⟩

/-- The same instructions have labels, whatever their names, and in the same order. -/
theorem Code.Renamed.labelled
    {code other : Code} {move : Handle → Handle}
    (renamed : code.Renamed other move) (sound : code.Sound) :
    other.labelled = code.labelled.map move := by
  have targeted :
      other.lines.flatMap Line.refs = (code.lines.flatMap Line.refs).map move := by
    rw [renamed.lines, List.flatMap_map, List.map_flatMap]
    apply List.flatMap_congr
    intro line _
    exact Instr.refs_map move line.instr
  have known : code.lines.flatMap Line.refs ⊆ code.handles := by
    intro ref member
    obtain ⟨line, lineMember, refMember⟩ := List.mem_flatMap.mp member
    exact sound.live line lineMember ref refMember
  simp only [Code.labelled, renamed.handles, targeted, List.filter_map]
  refine congrArg (List.map move) (List.filter_congr ?_)
  intro handle live
  rw [Bool.eq_iff_iff, Function.comp_apply, List.contains_iff_mem, List.contains_iff_mem]
  exact renamed.mem_map_iff known live

/-! ## Texts -/

namespace Listing

variable {code other : Code} {move : Handle → Handle} (program : Program) (palette : Palette)

/-- A reference with a label is shown by the label. -/
theorem refText_rename
    (renamed : code.Renamed other move) {handle : Handle} (labelled : handle ∈ code.labelled) :
    refText palette (code.labelled.map move) (move handle) =
      refText palette code.labelled handle := by
  obtain ⟨number, found⟩ : ∃ number, code.labelled.idxOf? handle = some number := by
    rw [← Option.isSome_iff_exists, List.isSome_idxOf?]
    exact labelled
  have known := code.labelled_subset
  rw [refText, refText, renamed.idxOf?_map known (known labelled), found]

theorem operandText_rename
    (renamed : code.Renamed other move) {operand : Operand Handle}
    (labelled : operand.refs ⊆ code.labelled) :
    operandText program palette (code.labelled.map move) (operand.map move) =
      operandText program palette code.labelled operand := by
  cases operand with
  | target handle =>
      exact refText_rename palette renamed (labelled List.mem_cons_self)
  | targets handles =>
      have texts :
          (handles.map move).map (refText palette (code.labelled.map move)) =
            handles.map (refText palette code.labelled) := by
        rw [List.map_map]
        apply List.map_congr_left
        intro handle member
        exact refText_rename palette renamed (labelled member)
      simp only [Operand.map, operandText, texts]
  | literal value => cases value <;> rfl
  | _ => rfl

theorem lineText_rename
    (renamed : code.Renamed other move) (sound : code.Sound)
    (width position : Nat) {line : Line} (member : line ∈ code.lines) :
    lineText program palette (code.labelled.map move) width position (line.rename move) =
      lineText program palette code.labelled width position line := by
  have live : line.handle ∈ code.handles := List.mem_map_of_mem member
  have label := renamed.idxOf?_map code.labelled_subset live
  have operand :=
    operandText_rename program palette renamed (sound.refs_subset_labelled member)
  simp only [lineText, Line.rename, Instr.map, label, operand]

end Listing

/-! ## Bodies -/

namespace Body

variable {body loaded : Body} {move : Handle → Handle}

/-- A body under other handles has the same listing. -/
theorem listing_of_renamed
    (renamed : body.code.Renamed loaded.code move) (sound : body.code.Sound)
    (linked : loaded.code.WellLinked) (program : Program) (palette : Palette) :
    loaded.listing program palette = body.listing program palette := by
  have length : loaded.code.length = body.code.length := by
    rw [linked.length_eq, sound.linked.length_eq, renamed.lines, List.length_map]
  simp only [listing, renamed.labelled sound, length, renamed.lines, List.zipIdx_map,
    List.map_map]
  refine congrArg String.join (List.map_congr_left ?_)
  intro entry member
  exact Listing.lineText_rename program palette renamed sound _ entry.2
    (List.fst_mem_of_mem_zipIdx member)

/-- Lines are the same if their handles and their instructions are. -/
private theorem lines_ext
    {lines others : List Line}
    (handles : lines.map Line.handle = others.map Line.handle)
    (instrs : lines.map Line.instr = others.map Line.instr) :
    lines = others := by
  induction lines generalizing others with
  | nil =>
      rw [List.map_nil] at handles
      exact (List.map_eq_nil_iff.mp handles.symm).symm
  | cons line lines inductionHypothesis =>
      cases others with
      | nil => cases handles
      | cons other others =>
          obtain ⟨handle, handles⟩ := List.cons.inj handles
          obtain ⟨instr, instrs⟩ := List.cons.inj instrs
          have same : line = other := congr (congrArg Line.mk handle) instr
          rw [same, inductionHypothesis handles instrs]

/-- As long as every position has a number, a body that is loaded from an image has the lines
of the original under other handles. -/
theorem Reloaded.renamed
    (reloaded : Reloaded body loaded move) (linked : body.code.WellLinked)
    (loadedLinked : loaded.code.WellLinked) (small : body.code.length ≤ UInt32.size) :
    body.code.Renamed loaded.code move := by
  have sameLength : loaded.code.handles.length = body.code.handles.length := by
    have lengths := congrArg List.length reloaded.instrs
    simpa [Code.handles] using lengths
  have handles : loaded.code.handles = body.code.handles.map move := by
    apply List.ext_getElem (by rw [sameLength, List.length_map])
    intro position _ bound
    rw [List.length_map] at bound
    have fits : position < UInt32.size := by
      rw [linked.length_eq] at small
      rw [Code.handles, List.length_map] at bound
      omega
    have placed :=
      linked.position?_eq_some_iff.mpr (List.getElem?_eq_getElem bound)
    obtain ⟨_, found⟩ := List.getElem?_eq_some_iff.mp (reloaded.position _ position fits placed)
    rw [found, List.getElem_map]
  refine ⟨lines_ext ?_ ?_, ?_⟩
  · rw [List.map_map]
    rw [Code.handles, Code.handles, List.map_map] at handles
    exact handles
  · rw [List.map_map]
    exact reloaded.instrs
  · have distinct := loadedLinked.nodup_handles
    rw [handles] at distinct
    exact List.inj_on_of_nodup_map distinct

/-- A body that is loaded from the image of another one has the same listing. -/
theorem listing_of_load
    {tag : Nat} (sound : body.code.Sound) (small : body.code.length ≤ UInt32.size)
    (reload : body.image.load tag = .ok loaded) (program : Program) (palette : Palette) :
    loaded.listing program palette = body.listing program palette := by
  have loadedLinked := (Image.sound_of_load reload).linked
  have renamed := (reloaded_of_load sound reload).renamed sound.linked loadedLinked small
  exact listing_of_renamed renamed sound loadedLinked program palette

end Body

end BytecodePatch
