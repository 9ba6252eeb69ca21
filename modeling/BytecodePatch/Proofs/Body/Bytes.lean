import BytecodePatch.Body.Bytes
import BytecodePatch.Proofs.Body.Image
import BytecodePatch.Proofs.Wire.Codec
import Mathlib.Algebra.Group.Int.Defs

/-!
# Images from their bytes

The bytes of an image are read as this image and nothing shorter is, whatever its types,
literals, symbols and references. The only limit is that of a machine: lists and texts have a
length of 64 bits. Reading is more generous than writing, for numbers may be padded with
zeros, but what it accepts is never shorter than what is written for the same image.
-/

namespace BytecodePatch

open Wire

namespace ValueType

/-- A name has a length of 64 bits. -/
def Addressable : ValueType → Prop
  | object name => name.utf8ByteSize < 2 ^ lengthWidth
  | _ => True

theorem codec : Codec bytes read Addressable where
  spells := by
    intro type addressable
    cases type with
    | bool => exact (spells_readNat (by decide)).bind_nil (Spells.pure bool)
    | int32 => exact (spells_readNat (by decide)).bind_nil (Spells.pure int32)
    | int64 => exact (spells_readNat (by decide)).bind_nil (Spells.pure int64)
    | float32 => exact (spells_readNat (by decide)).bind_nil (Spells.pure float32)
    | float64 => exact (spells_readNat (by decide)).bind_nil (Spells.pure float64)
    | string => exact (spells_readNat (by decide)).bind_nil (Spells.pure string)
    | object name =>
        exact (spells_readNat (by decide)).bind ((codec_text.spells name addressable).map rfl)
  shortest := by
    intro input type rest found
    obtain ⟨form, middle, found, short⟩ := exists_of_run_form found
    split at found
    case h_7 =>
      obtain ⟨name, rfl, addressable, nameShort⟩ := codec_text.of_map found
      exact ⟨addressable, length_append_le short nameShort⟩
    case h_8 => cases found
    all_goals
      obtain ⟨rfl, rfl⟩ := run_pure_eq_ok_iff.mp found
      exact ⟨trivial, short⟩

end ValueType

namespace Literal

/-- A text has a length of 64 bits. -/
def Addressable : Literal → Prop
  | string value => value.utf8ByteSize < 2 ^ lengthWidth
  | _ => True

private theorem zigzag_int32_lt (value : Int32) : zigzag value.toInt < 2 ^ 32 :=
  (zigzag_lt_iff (2 ^ 31)).mpr ⟨value.le_toInt, value.toInt_lt⟩

private theorem zigzag_int64_lt (value : Int64) : zigzag value.toInt < 2 ^ 64 :=
  (zigzag_lt_iff (2 ^ 63)).mpr ⟨value.le_toInt, value.toInt_lt⟩

private theorem zigzag_toInt_int32 {number : Nat} (fits : number < 2 ^ 32) :
    zigzag (Int32.ofInt (ofZigzag number)).toInt = number := by
  rw [← zigzag_ofZigzag number] at fits
  obtain ⟨least, greatest⟩ := (zigzag_lt_iff (2 ^ 31)).mp fits
  rw [Int32.toInt_ofInt_of_le least greatest, zigzag_ofZigzag]

private theorem zigzag_toInt_int64 {number : Nat} (fits : number < 2 ^ 64) :
    zigzag (Int64.ofInt (ofZigzag number)).toInt = number := by
  rw [← zigzag_ofZigzag number] at fits
  obtain ⟨least, greatest⟩ := (zigzag_lt_iff (2 ^ 63)).mp fits
  rw [Int64.toInt_ofInt_of_le least greatest, zigzag_ofZigzag]

theorem codec : Codec bytes read Addressable where
  spells := by
    intro literal addressable
    cases literal with
    | int32 value =>
        refine (spells_readNat (by decide)).bind
          ((spells_readNat (zigzag_int32_lt value)).map ?_)
        rw [ofZigzag_zigzag, Int32.ofInt_toInt]
    | int64 value =>
        refine (spells_readNat (by decide)).bind
          ((spells_readNat (zigzag_int64_lt value)).map ?_)
        rw [ofZigzag_zigzag, Int64.ofInt_toInt]
    | float32 bits =>
        refine (spells_readNat (by decide)).bind ((spells_readFixed bits.toNat_lt).map ?_)
        rw [UInt32.ofNat_toNat]
    | float64 bits =>
        refine (spells_readNat (by decide)).bind ((spells_readFixed bits.toNat_lt).map ?_)
        rw [UInt64.ofNat_toNat]
    | string value =>
        exact (spells_readNat (by decide)).bind ((codec_text.spells value addressable).map rfl)
  shortest := by
    intro input literal rest found
    obtain ⟨form, middle, found, short⟩ := exists_of_run_form found
    split at found
    · obtain ⟨number, rfl, fits, numberShort⟩ := (codec_nat 32).of_map found
      rw [bytes, zigzag_toInt_int32 fits]
      exact ⟨trivial, length_append_le short numberShort⟩
    · obtain ⟨number, rfl, fits, numberShort⟩ := (codec_nat 64).of_map found
      rw [bytes, zigzag_toInt_int64 fits]
      exact ⟨trivial, length_append_le short numberShort⟩
    · obtain ⟨number, rfl, fits, numberShort⟩ := (codec_fixed 4).of_map found
      rw [bytes, UInt32.toNat_ofNat_of_lt' fits]
      exact ⟨trivial, length_append_le short numberShort⟩
    · obtain ⟨number, rfl, fits, numberShort⟩ := (codec_fixed 8).of_map found
      rw [bytes, UInt64.toNat_ofNat_of_lt' fits]
      exact ⟨trivial, length_append_le short numberShort⟩
    · obtain ⟨value, rfl, addressable, valueShort⟩ := codec_text.of_map found
      exact ⟨addressable, length_append_le short valueShort⟩
    · cases found

end Literal

/-! ## Symbols -/

theorem TypePlace.codec : Codec bytes read fun _ => True where
  spells := by
    intro place _
    exact (codec_word.spells place.module trivial).bind
      ((codec_word.spells place.index trivial).map rfl)
  shortest := by
    intro input place rest found
    obtain ⟨module, middle, moduleTaken, found⟩ := run_bind_eq_ok_iff.mp found
    obtain ⟨index, rfl, _, indexShort⟩ := codec_word.of_map found
    exact ⟨trivial, length_append_le (codec_word.shortest moduleTaken).2 indexShort⟩

theorem MemberPlace.codec : Codec bytes read fun _ => True where
  spells := by
    intro place _
    exact (TypePlace.codec.spells place.owner trivial).bind
      ((codec_word.spells place.index trivial).map rfl)
  shortest := by
    intro input place rest found
    obtain ⟨owner, middle, ownerTaken, found⟩ := run_bind_eq_ok_iff.mp found
    obtain ⟨index, rfl, _, indexShort⟩ := codec_word.of_map found
    exact ⟨trivial, length_append_le (TypePlace.codec.shortest ownerTaken).2 indexShort⟩

theorem Symbol.codec : Codec bytes read fun _ => True where
  spells := by
    intro symbol _
    cases symbol with
    | type place =>
        exact (spells_readNat (by decide)).bind ((TypePlace.codec.spells place trivial).map rfl)
    | field place =>
        exact (spells_readNat (by decide)).bind
          ((MemberPlace.codec.spells place trivial).map rfl)
    | method place =>
        exact (spells_readNat (by decide)).bind
          ((MemberPlace.codec.spells place trivial).map rfl)
  shortest := by
    intro input symbol rest found
    obtain ⟨form, middle, found, short⟩ := exists_of_run_form found
    split at found
    · obtain ⟨place, rfl, _, placeShort⟩ := TypePlace.codec.of_map found
      exact ⟨trivial, length_append_le short placeShort⟩
    · obtain ⟨place, rfl, _, placeShort⟩ := MemberPlace.codec.of_map found
      exact ⟨trivial, length_append_le short placeShort⟩
    · obtain ⟨place, rfl, _, placeShort⟩ := MemberPlace.codec.of_map found
      exact ⟨trivial, length_append_le short placeShort⟩
    · cases found

/-! ## Instructions -/

namespace Operand

/-- A text, and a table of targets, has a length of 64 bits. -/
def Addressable : Operand UInt32 → Prop
  | literal value => value.Addressable
  | targets refs => refs.length < 2 ^ lengthWidth
  | _ => True

theorem codec : Codec bytes read Addressable where
  spells := by
    intro operand addressable
    cases operand with
    | none => exact (spells_readNat (by decide)).bind_nil (Spells.pure none)
    | literal value =>
        exact (spells_readNat (by decide)).bind
          ((Literal.codec.spells value addressable).map rfl)
    | symbol value =>
        exact (spells_readNat (by decide)).bind ((Symbol.codec.spells value trivial).map rfl)
    | localSlot index =>
        exact (spells_readNat (by decide)).bind ((codec_half.spells index trivial).map rfl)
    | argument index =>
        exact (spells_readNat (by decide)).bind ((codec_half.spells index trivial).map rfl)
    | target ref =>
        exact (spells_readNat (by decide)).bind ((codec_word.spells ref trivial).map rfl)
    | targets refs =>
        have spelled := (codec_list codec_word).spells refs ⟨addressable, fun _ _ => trivial⟩
        exact (spells_readNat (by decide)).bind (spelled.map rfl)
  shortest := by
    intro input operand rest found
    obtain ⟨form, middle, found, short⟩ := exists_of_run_form found
    split at found
    · obtain ⟨rfl, rfl⟩ := run_pure_eq_ok_iff.mp found
      exact ⟨trivial, short⟩
    · obtain ⟨value, rfl, addressable, valueShort⟩ := Literal.codec.of_map found
      exact ⟨addressable, length_append_le short valueShort⟩
    · obtain ⟨value, rfl, _, valueShort⟩ := Symbol.codec.of_map found
      exact ⟨trivial, length_append_le short valueShort⟩
    · obtain ⟨index, rfl, _, indexShort⟩ := codec_half.of_map found
      exact ⟨trivial, length_append_le short indexShort⟩
    · obtain ⟨index, rfl, _, indexShort⟩ := codec_half.of_map found
      exact ⟨trivial, length_append_le short indexShort⟩
    · obtain ⟨ref, rfl, _, refShort⟩ := codec_word.of_map found
      exact ⟨trivial, length_append_le short refShort⟩
    · obtain ⟨refs, rfl, addressable, refsShort⟩ := (codec_list codec_word).of_map found
      exact ⟨addressable.1, length_append_le short refsShort⟩
    · cases found

end Operand

theorem Opcode.index_of_ofIndex? {number : Nat} {opcode : Opcode}
    (found : ofIndex? number = some opcode) : opcode.index = number := by
  obtain ⟨bounded, rfl⟩ := List.getElem?_eq_some_iff.mp found
  have distinct : all.Nodup := by decide
  exact distinct.idxOf_getElem number bounded

theorem Opcode.codec : Codec bytes read fun _ => True where
  spells := by
    intro opcode _
    have small : opcode.index < 2 ^ 32 := Nat.lt_trans opcode.index_lt (by decide)
    refine (spells_readNat small).bind_nil ?_
    rw [ofIndex?_index]
    exact Spells.pure opcode
  shortest := by
    intro input opcode rest found
    obtain ⟨form, middle, found, short⟩ := exists_of_run_form found
    split at found
    · rename_i decoded decodedEq
      obtain ⟨rfl, rfl⟩ := run_pure_eq_ok_iff.mp found
      rw [bytes, index_of_ofIndex? decodedEq]
      exact ⟨trivial, short⟩
    · cases found

theorem Instr.codec : Codec bytes read fun instr => instr.operand.Addressable where
  spells := by
    intro instr addressable
    exact (Opcode.codec.spells instr.opcode trivial).bind
      ((Operand.codec.spells instr.operand addressable).map rfl)
  shortest := by
    intro input instr rest found
    obtain ⟨opcode, middle, opcodeTaken, found⟩ := run_bind_eq_ok_iff.mp found
    obtain ⟨operand, rfl, addressable, operandShort⟩ := Operand.codec.of_map found
    exact ⟨addressable, length_append_le (Opcode.codec.shortest opcodeTaken).2 operandShort⟩

/-! ## Images -/

namespace Image

/-- All lists and texts have lengths of 64 bits. -/
structure Addressable (image : Image) : Prop where
  args : image.args.length < 2 ^ lengthWidth ∧ ∀ type ∈ image.args, type.Addressable
  locals : image.locals.length < 2 ^ lengthWidth ∧ ∀ type ∈ image.locals, type.Addressable
  instrs :
    image.instrs.length < 2 ^ lengthWidth ∧ ∀ instr ∈ image.instrs, instr.operand.Addressable

theorem codec : Codec bytes read Addressable where
  spells := by
    intro image addressable
    have instrs := (codec_list Instr.codec).spells image.instrs addressable.instrs
    have locals := (codec_list ValueType.codec).spells image.locals addressable.locals
    have args := (codec_list ValueType.codec).spells image.args addressable.args
    rw [bytes, List.append_assoc]
    exact args.bind (locals.bind (instrs.map rfl))
  shortest := by
    intro input image rest found
    obtain ⟨args, afterArgs, argsTaken, found⟩ := run_bind_eq_ok_iff.mp found
    obtain ⟨locals, afterLocals, localsTaken, found⟩ := run_bind_eq_ok_iff.mp found
    obtain ⟨instrs, rfl, instrsFit, instrsShort⟩ := (codec_list Instr.codec).of_map found
    obtain ⟨argsFit, argsShort⟩ := (codec_list ValueType.codec).shortest argsTaken
    obtain ⟨localsFit, localsShort⟩ := (codec_list ValueType.codec).shortest localsTaken
    exact ⟨⟨argsFit, localsFit, instrsFit⟩,
      length_append_le (length_append_le argsShort localsShort) instrsShort⟩

theorem ofBytes_of_run
    {input rest : List UInt8} {image : Image}
    (taken : read.run input = .ok (image, rest)) :
    ofBytes input = image.validate.map fun _ => image := by
  rw [ofBytes, taken]
  change (image.validate >>= fun _ => pure image) = _
  cases image.validate <;> rfl

theorem ofBytes_eq_ok_iff {input : List UInt8} {image : Image} :
    ofBytes input = .ok image ↔
      (∃ rest, read.run input = .ok (image, rest)) ∧ image.validate = .ok () := by
  constructor
  · intro decoded
    cases taken : read.run input with
    | error fault =>
        rw [ofBytes, taken] at decoded
        cases decoded
    | ok found =>
        obtain ⟨other, rest⟩ := found
        rw [ofBytes_of_run taken] at decoded
        obtain ⟨_, valid, rfl⟩ := map_eq_ok_iff.mp decoded
        exact ⟨⟨rest, rfl⟩, valid⟩
  · rintro ⟨⟨rest, taken⟩, valid⟩
    rw [ofBytes_of_run taken, valid]
    rfl

/-- The bytes of an image that can be loaded are read as the image. -/
theorem ofBytes_bytes
    {image : Image} (addressable : image.Addressable) (loadable : image.Loadable) :
    ofBytes image.bytes = .ok image := by
  have whole := (codec.spells image addressable).whole []
  rw [List.append_nil] at whole
  have valid : image.validate = .ok () :=
    validate_eq_ok_iff.mpr fun instr member => (loadable instr member).2
  exact ofBytes_eq_ok_iff.mpr ⟨⟨[], whole⟩, valid⟩

/-- Written bytes are read as their image if its references are inside, and refused for one
that is not, whatever follows; cut short, they end too early. What is written for an image
that was read is no longer than what it was read from, and is read as the same image. -/
theorem ofBytes_decodes :
    (∀ image : Image, image.Addressable →
      (image.validate = .ok () → ∀ rest, ofBytes (image.bytes ++ rest) = .ok image) ∧
        (∀ rejection, image.validate = .error rejection →
          (∃ position ref instr,
            rejection = .targetOutOfRange position ref ∧ image.instrs[position]? = some instr ∧
              ref ∈ instr.refs ∧ image.length ≤ ref.toNat) ∧
            ∀ rest, ofBytes (image.bytes ++ rest) = .error rejection) ∧
        ∀ front, front <+: image.bytes → front ≠ image.bytes →
          ofBytes front = .error (.undecodable .endOfBytes)) ∧
      ∀ (input : List UInt8) (image : Image), ofBytes input = .ok image →
        image.bytes.length ≤ input.length ∧ ofBytes image.bytes = .ok image := by
  constructor
  · intro image addressable
    have spelled := codec.spells image addressable
    refine ⟨?_, ?_, ?_⟩
    · intro valid rest
      rw [ofBytes_of_run (spelled.whole rest), valid]
      rfl
    · intro rejection refused
      refine ⟨exists_of_validate_eq_error refused, ?_⟩
      intro rest
      rw [ofBytes_of_run (spelled.whole rest), refused]
      rfl
    · rintro front ⟨back, parts⟩ strict
      have missing : back ≠ [] := by
        rintro rfl
        exact strict (by rw [← parts, List.append_nil])
      rw [ofBytes, spelled.cut front back parts.symm missing]
  · intro input image decoded
    obtain ⟨⟨rest, taken⟩, valid⟩ := ofBytes_eq_ok_iff.mp decoded
    obtain ⟨addressable, short⟩ := codec.shortest taken
    have whole := (codec.spells image addressable).whole []
    rw [List.append_nil] at whole
    refine ⟨?_, ofBytes_eq_ok_iff.mpr ⟨⟨[], whole⟩, valid⟩⟩
    omega

/-- A name outside of ASCII, a number that is none, a negative number and a table. The bytes
of the empty image may be padded. -/
theorem ofBytes_decodes_of_table :
    let image : Image :=
      ⟨[.object "Größe"], [.bool],
        [⟨.loadConst, .literal (.float32 0x7fc00001)⟩, ⟨.loadConst, .literal (.int64 (-1))⟩,
          ⟨.switch, .targets [0, 2]⟩]⟩
    let outside : Image := ⟨[], [], [⟨.branch, .target 1⟩]⟩
    image.Addressable ∧ image.validate = .ok () ∧
      (∀ rest, ofBytes (image.bytes ++ rest) = .ok image) ∧
      ofBytes (image.bytes.take 20) = .error (.undecodable .endOfBytes) ∧
      outside.Addressable ∧ outside.validate = .error (.targetOutOfRange 0 1) ∧
      (∀ rest, ofBytes (outside.bytes ++ rest) = .error (.targetOutOfRange 0 1)) ∧
      ofBytes [128, 0, 0, 0] = .ok ⟨[], [], []⟩ ∧
      (Image.bytes ⟨[], [], []⟩).length ≤ 4 := by
  intro image outside
  have addressable : image.Addressable := by
    have nameAddressable : (ValueType.object "Größe").Addressable := by
      change "Größe".utf8ByteSize < 2 ^ lengthWidth
      decide +kernel
    refine ⟨⟨by decide, List.forall_mem_singleton.mpr nameAddressable⟩,
      ⟨by decide, List.forall_mem_singleton.mpr trivial⟩, ⟨by decide, ?_⟩⟩
    simp [image, Operand.Addressable, Literal.Addressable, lengthWidth]
  have outsideAddressable : outside.Addressable := by
    exact ⟨⟨by decide, List.forall_mem_nil _⟩, ⟨by decide, List.forall_mem_nil _⟩,
      ⟨by decide, List.forall_mem_singleton.mpr trivial⟩⟩
  have valid : image.validate = .ok () := by rfl
  have refused : outside.validate = .error (.targetOutOfRange 0 1) := by rfl
  have padded : ofBytes [128, 0, 0, 0] = .ok ⟨[], [], []⟩ := by rfl
  obtain ⟨whole, _, cut⟩ := ofBytes_decodes.1 image addressable
  obtain ⟨_, kept, _⟩ := ofBytes_decodes.1 outside outsideAddressable
  have strict : image.bytes.take 20 ≠ image.bytes := by
    decide +kernel
  exact ⟨addressable, valid, whole valid, cut _ (List.take_prefix 20 _) strict,
    outsideAddressable, refused, (kept _ refused).2, padded, (ofBytes_decodes.2 _ _ padded).1⟩

end Image

end BytecodePatch
