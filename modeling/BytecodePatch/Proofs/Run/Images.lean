import BytecodePatch.Proofs.Body.Insertions
import BytecodePatch.Proofs.Body.Labels
import BytecodePatch.Proofs.Body.Positions
import BytecodePatch.Proofs.Run.Action

/-!
# Images of reachable code

An image has no handles, and so no trace of the history of the code that it was made of. What
is listed is what is left in the image, with the positions of the image in one column, and the
order of insertions at different places makes no difference to it.
-/

namespace BytecodePatch

/-! ## Listings -/

/-- A listing shows the numbers of labels for handles. As long as every position is a number of
thirty-two bits, which is all that an image records of it, it is the listing of every body that
is loaded from the image, and of every other body that a run reaches with this image. -/
theorem listing_of_run
    {start : Code} (origin : Origin start) (actions : List Action)
    (args locals : List ValueType) :
    let body : Body := ⟨args, locals, start.run actions⟩
    (∃ number, body.code.Numbers number ∧ body.ShowsNumbers number) ∧
      ∃ image,
        body.flatten = .ok image ∧
          (body.code.length ≤ UInt32.size →
            (∀ tag, ∃ loaded,
              image.load tag = .ok loaded ∧
                ∀ program palette,
                  loaded.listing program palette = body.listing program palette) ∧
              ∀ otherStart, Origin otherStart →
                ∀ otherActions otherArgs otherLocals,
                  let other : Body := ⟨otherArgs, otherLocals, otherStart.run otherActions⟩
                  other.flatten = .ok image →
                    ∀ program palette,
                      other.listing program palette = body.listing program palette) := by
  intro body
  have sound : body.code.Sound := origin.sound.run actions
  refine ⟨⟨_, sound.numbers, Body.showsNumbers sound⟩, body.image, Body.flatten_of_sound sound, ?_⟩
  intro small
  constructor
  · intro tag
    have loads : body.image.load tag = .ok ⟨args, locals, body.image.codeOf tag⟩ :=
      Image.load_eq_ok_iff.mpr ⟨Body.loadable_image sound, rfl⟩
    exact ⟨_, loads, Body.listing_of_load sound small loads⟩
  · intro otherStart otherOrigin otherActions otherArgs otherLocals other flattened
    have otherSound : other.code.Sound := otherOrigin.sound.run otherActions
    exact Body.listing_eq_of_flatten_eq sound otherSound small (Body.flatten_of_sound sound)
      flattened

/-- A loop in slots three and four of code that has lost two instructions, and the same loop in
slots one and two of other code. -/
theorem listing_of_run_loop :
    let body : Body := ⟨[], [], (Code.empty 0).run
      [.append (.plain .nop), .append (.plain .nop), .append (.plain .ret),
        .insertBefore ⟨0, 2⟩ ⟨.branchIfTrue, .target ⟨0, 2⟩⟩,
        .insertBefore ⟨0, 2⟩ ⟨.branch, .target ⟨0, 3⟩⟩, .removeRange ⟨0, 0⟩ 2 .reject]⟩
    let other : Body := ⟨[], [], (Code.empty 7).run
      [.append (.plain .ret), .insertBefore ⟨7, 0⟩ ⟨.branchIfTrue, .target ⟨7, 0⟩⟩,
        .insertAfter ⟨7, 1⟩ ⟨.branch, .target ⟨7, 1⟩⟩]⟩
    let image : Image :=
      ⟨[], [], [⟨.branchIfTrue, .target 2⟩, ⟨.branch, .target 0⟩, ⟨.ret, .none⟩]⟩
    Origin (.empty 0) ∧ Origin (.empty 7) ∧ body.code.length ≤ UInt32.size ∧
      body.flatten = .ok image ∧ other.flatten = .ok image ∧
      body.code.handles = [⟨0, 3⟩, ⟨0, 4⟩, ⟨0, 2⟩] ∧
      other.code.handles = [⟨7, 1⟩, ⟨7, 2⟩, ⟨7, 0⟩] ∧
      (∀ program palette, other.listing program palette = body.listing program palette) ∧
      body.listing ⟨[]⟩ .plain = "L0:\n  0  brtrue L1\n  1  br L0\nL1:\n  2  ret\n" := by
  intro body other image
  have origin : Origin (.empty 0) := .empty 0
  have otherOrigin : Origin (.empty 7) := .empty 7
  have flattened : body.flatten = .ok image := by
    rfl
  have otherFlattened : other.flatten = .ok image := by
    rfl
  have small : body.code.length ≤ UInt32.size := by
    decide +kernel
  obtain ⟨found, isFound, same⟩ := (listing_of_run origin _ [] []).2
  obtain rfl : found = image := Except.ok.inj (isFound.symm.trans flattened)
  exact ⟨origin, otherOrigin, small, flattened, otherFlattened, by decide +kernel,
    by decide +kernel, (same small).2 _ otherOrigin _ [] [] otherFlattened, by decide +kernel⟩

/-! ## Columns of positions -/

/-- The width of a column is the least one, from one on, that the decimal form of every position
below the count fits into. In every listing of a body, also under the heading of a method, the
rows of the instructions have fields of digits of this width, and from the first to the last the
fields read as the numbers from zero on. As long as names and styles leave the lines alone, the
fields are what is found in the text of the listing. -/
theorem columns_of_run
    {start : Code} (origin : Origin start) (actions : List Action)
    (args locals : List ValueType) :
    let body : Body := ⟨args, locals, start.run actions⟩
    let fields := positionColumn body.code.lines.length
    (∀ count, IsLeast {width | 1 ≤ width ∧ PositionsFit count width} (positionWidth count)) ∧
      IsPositionColumn body.code.lines.length fields ∧
        ∀ program palette,
          body.listing program palette = body.listingWith program palette fields ∧
            (palette.KeepsShape → body.HasOneLineNames program →
              Listing.positionsOf palette (body.listing program palette) = fields) ∧
            ∀ place method,
              program.method? place = some method → method.body = some body →
                ∃ heading,
                  program.methodListing? place palette =
                    some (heading ++ body.listing program palette) := by
  intro body fields
  have linked : body.code.WellLinked := (origin.sound.run actions).linked
  refine ⟨isLeast_positionWidth, isPositionColumn_positionColumn _, ?_⟩
  intro program palette
  refine ⟨Body.listing_eq_listingWith linked program palette, ?_, ?_⟩
  · intro keepsShape named
    exact Body.positionsOf_listing linked keepsShape named
  · intro place method found hasBody
    exact Program.exists_heading found hasBody palette

/-- Eleven instructions: the first one branches to the last one, which so has a label, and the
tenth one shows a name. -/
theorem columns_of_run_eleven :
    let field : Symbol := .field ⟨⟨0, 0⟩, 0⟩
    let actions : List Action :=
      List.replicate 9 (.append (.plain .nop)) ++
        [.append (.plain .ret), .insertBefore ⟨0, 9⟩ ⟨.loadField, .symbol field⟩,
          .insertBefore ⟨0, 0⟩ ⟨.branch, .target ⟨0, 9⟩⟩, .remove ⟨0, 0⟩ .reject]
    let body : Body := ⟨[], [], (Code.empty 0).run actions⟩
    let method : MethodDecl := ⟨"f", "void", [], some body, [], .unpatched⟩
    let program : Program := ⟨[⟨"m", [⟨"T", [⟨"x", "int"⟩], [method]⟩]⟩]⟩
    let fields := ["00", "01", "02", "03", "04", "05", "06", "07", "08", "09", "10"]
    Origin (.empty 0) ∧ body.code.lines.length = 11 ∧ body.HasOneLineNames program ∧
      program.method? ⟨⟨0, 0⟩, 0⟩ = some method ∧
      IsLeast {width | 1 ≤ width ∧ PositionsFit 11 width} (positionWidth 11) ∧
      IsPositionColumn 11 fields ∧
      ∀ palette ∈ [Palette.plain, Palette.terminal],
        palette.KeepsShape ∧
          body.listing program palette = body.listingWith program palette fields ∧
          Listing.positionsOf palette (body.listing program palette) = fields ∧
          ∃ heading,
            program.methodListing? ⟨⟨0, 0⟩, 0⟩ palette =
              some (heading ++ body.listing program palette) := by
  intro field actions body method program fields
  have origin : Origin (.empty 0) := .empty 0
  have count : body.code.lines.length = 11 := by
    decide +kernel
  have column : positionColumn 11 = fields := by
    decide +kernel
  have named : body.HasOneLineNames program := by
    decide +kernel
  have found : program.method? ⟨⟨0, 0⟩, 0⟩ = some method := rfl
  obtain ⟨least, isColumn, shown⟩ := columns_of_run origin actions [] []
  rw [count, column] at isColumn
  refine ⟨origin, count, named, found, least 11, isColumn, ?_⟩
  intro palette member
  have keepsShape : palette.KeepsShape := by
    simp only [List.mem_cons, List.not_mem_nil, or_false] at member
    rcases member with rfl | rfl
    · exact Palette.keepsShape_plain
    · exact Palette.keepsShape_terminal
  obtain ⟨listing, read, headed⟩ := shown program palette
  rw [count, column] at listing read
  exact ⟨keepsShape, listing, read keepsShape named, headed _ method found rfl⟩

/-! ## Insertions -/

/-- Two instructions that the code accepts can go in at different places in either order, each
before a live instruction or at the end. The image is the same one, and everything that was
there before is as it was. -/
theorem insertions_of_run
    {start : Code} (origin : Origin start) (actions : List Action)
    {anchor otherAnchor : Option Handle} {instr otherInstr : Instr Handle}
    (live : ∀ handle ∈ anchor, (start.run actions).contains handle = true)
    (otherLive : ∀ handle ∈ otherAnchor, (start.run actions).contains handle = true)
    (different : anchor ≠ otherAnchor)
    (accepted : (start.run actions).check instr = .ok ())
    (otherAccepted : (start.run actions).check otherInstr = .ok ()) :
    ∃ result otherResult,
      (start.run actions).insertBothAt anchor instr otherAnchor otherInstr = .ok result ∧
        (start.run actions).insertBothAt otherAnchor otherInstr anchor instr = .ok otherResult ∧
          Code.Interchangeable (start.run actions) result otherResult :=
  (origin.sound.run actions).exists_interchangeable live otherLive different accepted
    otherAccepted

/-- A branch before the only instruction and another one behind it, both of them to it. -/
theorem insertions_of_run_around :
    let reached := (Code.empty 0).run
      [.append (.plain .nop), .append (.plain .ret), .remove ⟨0, 0⟩ .reject]
    let front : Instr Handle := ⟨.branchIfTrue, .target ⟨0, 1⟩⟩
    let back : Instr Handle := ⟨.branch, .target ⟨0, 1⟩⟩
    let inOrder := reached.insertBothAt (some ⟨0, 1⟩) front none back
    let reversed := reached.insertBothAt none back (some ⟨0, 1⟩) front
    Origin (.empty 0) ∧ reached.contains ⟨0, 1⟩ = true ∧ reached.check front = .ok () ∧
      reached.check back = .ok () ∧
      (∃ result otherResult,
        inOrder = .ok result ∧ reversed = .ok otherResult ∧
          Code.Interchangeable reached result otherResult) ∧
      inOrder.toOption.map Code.handles = some [⟨0, 2⟩, ⟨0, 1⟩, ⟨0, 3⟩] ∧
      reversed.toOption.map Code.handles = some [⟨0, 3⟩, ⟨0, 1⟩, ⟨0, 2⟩] ∧
      (inOrder.toOption.map fun result => (Body.image ⟨[], [], result⟩).instrs) =
        some [⟨.branchIfTrue, .target 1⟩, ⟨.ret, .none⟩, ⟨.branch, .target 1⟩] := by
  intro reached front back inOrder reversed
  have origin : Origin (.empty 0) := .empty 0
  have live : reached.contains ⟨0, 1⟩ = true := by
    decide +kernel
  have anchored :
      ∀ handle ∈ some (⟨0, 1⟩ : Handle), reached.contains handle = true := by
    simpa using live
  have atEnd : ∀ handle ∈ (none : Option Handle), reached.contains handle = true := by
    simp
  have accepted : reached.check front = .ok () := by
    rfl
  have otherAccepted : reached.check back = .ok () := by
    rfl
  exact ⟨origin, live, accepted, otherAccepted,
    insertions_of_run origin _ anchored atEnd (Option.some_ne_none _) accepted otherAccepted,
    by decide +kernel, by decide +kernel, by decide +kernel⟩

end BytecodePatch
