import BytecodePatch.Wire.Basic
import Mathlib.Algebra.Group.Nat.Defs
import Mathlib.Data.List.Basic

/-!
# Writing and reading

A writer and a reader belong together if the reader takes exactly the bytes that were written
for a value, whatever follows them, and if no value can be read from fewer bytes than are
written for it. Written bytes that are cut short are found to end too early. Both laws are
kept when readers are run one after another, so that they are shown for numbers, texts and
lists here and hold for everything that is built from these.
-/

namespace BytecodePatch.Wire

variable {α β : Type}

/-- A reader takes exactly these bytes for a value, and misses bytes if they are cut short. -/
structure Spells (read : Reader α) (bytes : List UInt8) (value : α) : Prop where
  whole : ∀ rest, read.run (bytes ++ rest) = .ok (value, rest)
  cut :
    ∀ front back, bytes = front ++ back → back ≠ [] → read.run front = .error .endOfBytes

/-- What is written for a fitting value spells it, and what is read is a fitting value for
which no more bytes are written than were taken. -/
structure Codec (write : α → List UInt8) (read : Reader α) (Fits : α → Prop) : Prop where
  spells : ∀ value, Fits value → Spells read (write value) value
  shortest :
    ∀ {bytes value rest},
      read.run bytes = .ok (value, rest) →
        Fits value ∧ rest.length + (write value).length ≤ bytes.length

/-! ## Readers one after another -/

section Sequences

variable {read : Reader α} {next : α → Reader β} {make : α → β}
variable {bytes rest : List UInt8}

theorem run_pure_eq_ok_iff {value made : α} :
    (pure value : Reader α).run bytes = .ok (made, rest) ↔ value = made ∧ bytes = rest := by
  rw [StateT.run_pure]
  constructor
  · intro equal
    cases equal
    exact ⟨rfl, rfl⟩
  · rintro ⟨rfl, rfl⟩
    rfl

theorem run_bind_eq_ok_iff {made : β} :
    (read >>= next).run bytes = .ok (made, rest) ↔
      ∃ value middle,
        read.run bytes = .ok (value, middle) ∧ (next value).run middle = .ok (made, rest) := by
  rw [StateT.run_bind]
  cases read.run bytes with
  | error fault =>
      constructor
      · intro impossible
        cases impossible
      · rintro ⟨_, _, impossible, _⟩
        cases impossible
  | ok taken =>
      constructor
      · intro found
        exact ⟨taken.1, taken.2, rfl, found⟩
      · rintro ⟨value, middle, equal, found⟩
        cases equal
        exact found

theorem run_bind_of_ok
    {value : α} {middle : List UInt8} (found : read.run bytes = .ok (value, middle)) :
    (read >>= next).run bytes = (next value).run middle := by
  rw [StateT.run_bind, found]
  rfl

theorem run_bind_of_error {fault : Fault} (failed : read.run bytes = .error fault) :
    (read >>= next).run bytes = .error fault := by
  rw [StateT.run_bind, failed]
  rfl

theorem Spells.pure (value : α) : Spells (pure value) [] value where
  whole := fun _ => rfl
  cut := by
    intro front back parts nonempty
    exact absurd (List.append_eq_nil_iff.mp parts.symm).2 nonempty

/-- A first byte after which another reader takes over. -/
theorem Spells.cons
    {byte : UInt8} {value : α} {others : Reader α}
    (empty : read.run [] = .error .endOfBytes)
    (onwards : ∀ rest, read.run (byte :: rest) = others.run rest)
    (spelled : Spells others bytes value) :
    Spells read (byte :: bytes) value where
  whole := by
    intro rest
    rw [List.cons_append, onwards, spelled.whole]
  cut := by
    intro front back parts nonempty
    cases front with
    | nil => exact empty
    | cons first front =>
        obtain ⟨rfl, otherParts⟩ := List.cons.inj parts
        rw [onwards]
        exact spelled.cut front back otherParts nonempty

theorem Spells.bind
    {first second : List UInt8} {value : α} {made : β}
    (spelled : Spells read first value) (nextSpelled : Spells (next value) second made) :
    Spells (read >>= next) (first ++ second) made where
  whole := by
    intro rest
    rw [List.append_assoc, run_bind_of_ok (spelled.whole _), nextSpelled.whole]
  cut := by
    intro front back parts nonempty
    rcases List.append_eq_append_iff.mp parts with
      ⟨more, rfl, secondParts⟩ | ⟨missing, firstParts, rfl⟩
    · rw [run_bind_of_ok (spelled.whole more)]
      exact nextSpelled.cut more back secondParts nonempty
    · by_cases complete : missing = []
      · subst complete
        rw [List.append_nil] at firstParts
        rw [← firstParts, ← List.append_nil first, run_bind_of_ok (spelled.whole [])]
        exact nextSpelled.cut [] second rfl nonempty
      · exact run_bind_of_error (spelled.cut front missing firstParts complete)

/-- A last reader that takes no bytes. -/
theorem Spells.bind_nil
    {value : α} {made : β}
    (spelled : Spells read bytes value) (nextSpelled : Spells (next value) [] made) :
    Spells (read >>= next) bytes made := by
  have whole := spelled.bind nextSpelled
  rwa [List.append_nil] at whole

theorem Spells.map {value : α} {made : β}
    (spelled : Spells read bytes value) (equal : make value = made) :
    Spells (read >>= fun value => Pure.pure (make value)) bytes made :=
  spelled.bind_nil (equal ▸ Spells.pure (make value))

variable {write : α → List UInt8} {Fits : α → Prop}

/-- What is made of a value that is read. -/
theorem Codec.of_map
    (codec : Codec write read Fits) {made : β}
    (found : (read >>= fun value => Pure.pure (make value)).run bytes = .ok (made, rest)) :
    ∃ value,
      made = make value ∧ Fits value ∧ rest.length + (write value).length ≤ bytes.length := by
  obtain ⟨value, middle, taken, done⟩ := run_bind_eq_ok_iff.mp found
  obtain ⟨rfl, rfl⟩ := run_pure_eq_ok_iff.mp done
  exact ⟨value, rfl, codec.shortest taken⟩

end Sequences

/-- The bytes of two parts, one after the other. -/
theorem length_append_le
    {first second : List UInt8} {start middle last : Nat}
    (firstShort : middle + first.length ≤ start) (secondShort : last + second.length ≤ middle) :
    last + (first ++ second).length ≤ start := by
  rw [List.length_append]
  omega

/-! ## Natural numbers -/

theorem writeNat_of_lt {number : Nat} (small : number < 128) :
    writeNat number = [UInt8.ofNat number] := by
  rw [writeNat, if_pos small]

theorem writeNat_of_le {number : Nat} (large : 128 ≤ number) :
    writeNat number = UInt8.ofNat (number % 128 + 128) :: writeNat (number / 128) := by
  rw [writeNat, if_neg (Nat.not_lt.mpr large)]

/-- Seven bits below a number take no more than one byte. -/
theorem length_writeNat_le {low : Nat} (small : low < 128) (high : Nat) :
    (writeNat (low + 128 * high)).length ≤ (writeNat high).length + 1 := by
  rcases Nat.eq_zero_or_pos high with rfl | positive
  · rw [writeNat_of_lt (by omega)]
    exact Nat.le_add_left 1 _
  · have quotient : (low + 128 * high) / 128 = high := by omega
    rw [writeNat_of_le (by omega), quotient]
    exact Nat.le_refl _

private theorem two_pow_eq {width : Nat} (wide : 7 < width) :
    2 ^ width = 128 * 2 ^ (width - 7) := by
  calc
    2 ^ width = 2 ^ (7 + (width - 7)) := by rw [Nat.add_sub_cancel' (Nat.le_of_lt wide)]
    _ = 128 * 2 ^ (width - 7) := Nat.pow_add 2 7 (width - 7)

theorem readNat_of_lt
    {width : Nat} {byte : UInt8} (rest : List UInt8)
    (last : byte.toNat < 128) (fits : byte.toNat < 2 ^ width) :
    (readNat width).run (byte :: rest) = (pure byte.toNat : Reader Nat).run rest := by
  have inside : ¬(width ≤ 7 ∧ Nat.pow 2 width ≤ byte.toNat) :=
    fun outside => Nat.not_le.mpr fits outside.2
  change takeNat width (byte :: rest) = _
  rw [takeNat, if_pos last, if_neg inside]
  rfl

theorem readNat_of_le
    {width : Nat} {byte : UInt8} (rest : List UInt8)
    (goesOn : 128 ≤ byte.toNat) (wide : 7 < width) :
    (readNat width).run (byte :: rest) =
      (readNat (width - 7) >>= fun high => pure (byte.toNat - 128 + 128 * high)).run rest := by
  change takeNat width (byte :: rest) = _
  rw [takeNat, if_neg (Nat.not_lt.mpr goesOn), if_neg (Nat.not_le.mpr wide), StateT.run_bind]
  change _ = takeNat (width - 7) rest >>= _
  cases takeNat (width - 7) rest with
  | error fault => rfl
  | ok taken => rfl

/-- A number of no more bits than the width is spelled by what is written for it. -/
theorem spells_readNat {number width : Nat} (fits : number < 2 ^ width) :
    Spells (readNat width) (writeNat number) number := by
  induction number using Nat.strongRecOn generalizing width with
  | ind number inductionHypothesis =>
      rcases Nat.lt_or_ge number 128 with small | large
      · have byteEq : (UInt8.ofNat number).toNat = number :=
          UInt8.toNat_ofNat_of_lt' (Nat.lt_trans small (by decide))
        rw [writeNat_of_lt small]
        refine Spells.cons rfl (fun rest => ?_) (Spells.pure number)
        rw [readNat_of_lt rest (byteEq.symm ▸ small) (byteEq.symm ▸ fits), byteEq]
      · have byteEq : (UInt8.ofNat (number % 128 + 128)).toNat = number % 128 + 128 :=
          UInt8.toNat_ofNat_of_lt' (show number % 128 + 128 < 256 by omega)
        have goesOn : 128 ≤ (UInt8.ofNat (number % 128 + 128)).toNat := by
          rw [byteEq]
          exact Nat.le_add_left 128 _
        have wide : 7 < width := by
          by_contra narrow
          have bounded : 2 ^ width ≤ 2 ^ 7 :=
            Nat.pow_le_pow_right Nat.two_pos (Nat.not_lt.mp narrow)
          omega
        have highFits : number / 128 < 2 ^ (width - 7) := by
          rw [two_pow_eq wide] at fits
          exact Nat.div_lt_of_lt_mul fits
        have high := inductionHypothesis (number / 128) (by omega) highFits
        rw [writeNat_of_le large]
        refine Spells.cons rfl (fun rest => readNat_of_le rest goesOn wide) (high.map ?_)
        omega

theorem shortest_readNat {bytes : List UInt8} :
    ∀ {width number : Nat} {rest : List UInt8},
      (readNat width).run bytes = .ok (number, rest) →
        number < 2 ^ width ∧ rest.length + (writeNat number).length ≤ bytes.length := by
  induction bytes with
  | nil =>
      intro width number rest taken
      cases taken
  | cons byte bytes inductionHypothesis =>
      intro width number rest taken
      rcases Nat.lt_or_ge byte.toNat 128 with last | goesOn
      · change takeNat width (byte :: bytes) = _ at taken
        rw [takeNat, if_pos last] at taken
        split at taken
        · cases taken
        · rename_i inside
          cases taken
          refine ⟨?_, ?_⟩
          · rcases Nat.lt_or_ge 7 width with wide | narrow
            · calc
                byte.toNat < 2 ^ 7 := last
                _ ≤ 2 ^ width := Nat.pow_le_pow_right Nat.two_pos (Nat.le_of_lt wide)
            · exact Nat.not_le.mp fun outside => inside ⟨narrow, outside⟩
          · rw [writeNat_of_lt last]
            exact Nat.le_refl _
      · rcases Nat.lt_or_ge 7 width with wide | narrow
        · rw [readNat_of_le bytes goesOn wide] at taken
          obtain ⟨high, others, highTaken, done⟩ := run_bind_eq_ok_iff.mp taken
          obtain ⟨rfl, rfl⟩ := run_pure_eq_ok_iff.mp done
          obtain ⟨highFits, highShort⟩ := inductionHypothesis highTaken
          have low : byte.toNat - 128 < 128 := by
            have bounded := byte.toNat_lt
            omega
          have added := length_writeNat_le low high
          refine ⟨?_, ?_⟩
          · rw [two_pow_eq wide]
            omega
          · rw [List.length_cons]
            omega
        · change takeNat width (byte :: bytes) = _ at taken
          rw [takeNat, if_neg (Nat.not_lt.mpr goesOn), if_pos narrow] at taken
          cases taken

theorem codec_nat (width : Nat) : Codec writeNat (readNat width) (· < 2 ^ width) where
  spells := fun _ fits => spells_readNat fits
  shortest := shortest_readNat

/-- What follows the number of a form. -/
theorem exists_of_run_form
    {branch : Nat → Reader α} {made : α} {bytes rest : List UInt8}
    (found : (readForm >>= branch).run bytes = .ok (made, rest)) :
    ∃ form middle,
      (branch form).run middle = .ok (made, rest) ∧
        middle.length + (writeNat form).length ≤ bytes.length := by
  obtain ⟨form, middle, formTaken, found⟩ := run_bind_eq_ok_iff.mp found
  exact ⟨form, middle, found, ((codec_nat 32).shortest formTaken).2⟩

theorem codec_word : Codec (fun word : UInt32 => writeNat word.toNat) readWord fun _ => True where
  spells := by
    intro word _
    exact (spells_readNat word.toNat_lt).map UInt32.ofNat_toNat
  shortest := by
    intro bytes word rest found
    obtain ⟨number, rfl, fits, short⟩ := (codec_nat 32).of_map found
    rw [UInt32.toNat_ofNat_of_lt' fits]
    exact ⟨trivial, short⟩

theorem codec_half : Codec (fun half : UInt16 => writeNat half.toNat) readHalf fun _ => True where
  spells := by
    intro half _
    exact (spells_readNat half.toNat_lt).map UInt16.ofNat_toNat
  shortest := by
    intro bytes half rest found
    obtain ⟨number, rfl, fits, short⟩ := (codec_nat 16).of_map found
    rw [UInt16.toNat_ofNat_of_lt' fits]
    exact ⟨trivial, short⟩

/-! ## Numbers of fixed width -/

theorem spells_readByte (byte : UInt8) : Spells readByte [byte] byte :=
  Spells.cons rfl (fun _ => rfl) (Spells.pure byte)

theorem spells_readFixed :
    ∀ {count number : Nat},
      number < 256 ^ count → Spells (readFixed count) (writeFixed count number) number
  | 0, number, fits => by
      obtain rfl : number = 0 := Nat.lt_one_iff.mp fits
      exact Spells.pure 0
  | count + 1, number, fits => by
      have highFits : number / 256 < 256 ^ count := by
        rw [Nat.pow_succ'] at fits
        exact Nat.div_lt_of_lt_mul fits
      have lowEq : (UInt8.ofNat (number % 256)).toNat = number % 256 :=
        UInt8.toNat_ofNat_of_lt' (Nat.mod_lt number (by decide))
      have whole : (UInt8.ofNat (number % 256)).toNat + 256 * (number / 256) = number := by
        rw [lowEq]
        exact Nat.mod_add_div number 256
      exact (spells_readByte _).bind ((spells_readFixed highFits).map whole)

theorem shortest_readFixed :
    ∀ {count number : Nat} {bytes rest : List UInt8},
      (readFixed count).run bytes = .ok (number, rest) →
        number < 256 ^ count ∧ rest.length + (writeFixed count number).length ≤ bytes.length
  | 0, number, bytes, rest, found => by
      obtain ⟨rfl, rfl⟩ := run_pure_eq_ok_iff.mp found
      exact ⟨Nat.zero_lt_one, Nat.le_refl _⟩
  | count + 1, number, bytes, rest, found => by
      obtain ⟨low, middle, lowTaken, found⟩ := run_bind_eq_ok_iff.mp found
      obtain ⟨high, others, highTaken, done⟩ := run_bind_eq_ok_iff.mp found
      obtain ⟨rfl, rfl⟩ := run_pure_eq_ok_iff.mp done
      obtain ⟨highFits, highShort⟩ := shortest_readFixed highTaken
      have bounded := low.toNat_lt
      have quotient : (low.toNat + 256 * high) / 256 = high := by omega
      cases bytes with
      | nil => cases lowTaken
      | cons byte bytes =>
          cases lowTaken
          refine ⟨?_, ?_⟩
          · rw [Nat.pow_succ']
            omega
          · rw [writeFixed, quotient, List.length_cons, List.length_cons]
            omega

theorem codec_fixed (count : Nat) :
    Codec (writeFixed count) (readFixed count) (· < 256 ^ count) where
  spells := fun _ fits => spells_readFixed fits
  shortest := shortest_readFixed

/-! ## Signed numbers -/

theorem ofZigzag_zigzag (value : Int) : ofZigzag (zigzag value) = value := by
  unfold zigzag ofZigzag
  split <;> split <;> omega

theorem zigzag_ofZigzag (number : Nat) : zigzag (ofZigzag number) = number := by
  unfold zigzag ofZigzag
  split <;> split <;> omega

/-- The numbers below an even limit belong to the integers on either side of zero. -/
theorem zigzag_lt_iff {value : Int} (half : Nat) :
    zigzag value < 2 * half ↔ -half ≤ value ∧ value < half := by
  unfold zigzag
  split <;> omega

/-! ## Lists -/

section Lists

variable {write : α → List UInt8} {read : Reader α} {Fits : α → Prop}

theorem spells_readMany (codec : Codec write read Fits) :
    ∀ {values : List α},
      (∀ value ∈ values, Fits value) →
        Spells (readMany read values.length) (values.flatMap write) values
  | [], _ => Spells.pure []
  | value :: values, fits => by
      obtain ⟨first, others⟩ := List.forall_mem_cons.mp fits
      exact (codec.spells value first).bind ((spells_readMany codec others).map rfl)

theorem shortest_readMany (codec : Codec write read Fits) :
    ∀ {count : Nat} {values : List α} {bytes rest : List UInt8},
      (readMany read count).run bytes = .ok (values, rest) →
        values.length = count ∧ (∀ value ∈ values, Fits value) ∧
          rest.length + (values.flatMap write).length ≤ bytes.length
  | 0, values, bytes, rest, found => by
      obtain ⟨rfl, rfl⟩ := run_pure_eq_ok_iff.mp found
      simp
  | count + 1, values, bytes, rest, found => by
      obtain ⟨first, middle, firstTaken, found⟩ := run_bind_eq_ok_iff.mp found
      obtain ⟨others, last, othersTaken, done⟩ := run_bind_eq_ok_iff.mp found
      obtain ⟨rfl, rfl⟩ := run_pure_eq_ok_iff.mp done
      obtain ⟨firstFits, firstShort⟩ := codec.shortest firstTaken
      obtain ⟨rfl, othersFit, othersShort⟩ := shortest_readMany codec othersTaken
      refine ⟨rfl, List.forall_mem_cons.mpr ⟨firstFits, othersFit⟩, ?_⟩
      exact length_append_le firstShort othersShort

/-- Lists of less than the greatest length, with fitting items. -/
theorem codec_list (codec : Codec write read Fits) :
    Codec (writeList write) (readList read) fun values =>
      values.length < 2 ^ lengthWidth ∧ ∀ value ∈ values, Fits value where
  spells := by
    rintro values ⟨bounded, fits⟩
    exact (spells_readNat bounded).bind (spells_readMany codec fits)
  shortest := by
    intro bytes values rest found
    obtain ⟨count, middle, countTaken, found⟩ := run_bind_eq_ok_iff.mp found
    obtain ⟨bounded, countShort⟩ := (codec_nat lengthWidth).shortest countTaken
    obtain ⟨rfl, fits, short⟩ := shortest_readMany codec found
    exact ⟨⟨bounded, fits⟩, length_append_le countShort short⟩

end Lists

/-! ## Texts -/

theorem textOfBytes?_eq_some_iff {bytes : List UInt8} {text : String} :
    textOfBytes? bytes = some text ↔ text.toByteArray.data.toList = bytes := by
  unfold textOfBytes? String.fromUTF8?
  constructor
  · intro found
    split at found
    · cases found
      rfl
    · cases found
  · rintro rfl
    rw [dif_pos text.isValidUTF8]
    rfl

theorem spells_readBytes (bytes : List UInt8) : Spells (readBytes bytes.length) bytes bytes where
  whole := by
    intro rest
    have enough : ¬(bytes ++ rest).length < bytes.length := by
      rw [List.length_append]
      omega
    change ite _ _ _ = _
    rw [if_neg enough, List.take_left, List.drop_left]
  cut := by
    intro front back parts nonempty
    have positive := List.length_pos_of_ne_nil nonempty
    have missing : front.length < bytes.length := by
      rw [parts, List.length_append]
      omega
    change ite _ _ _ = _
    rw [if_pos missing]

/-- Texts of less than the greatest length. -/
theorem codec_text : Codec writeText readText fun text => text.utf8ByteSize < 2 ^ lengthWidth where
  spells := by
    intro text bounded
    refine (spells_readNat bounded).bind ((spells_readBytes _).bind_nil ?_)
    rw [textOfBytes?_eq_some_iff.mpr rfl]
    exact Spells.pure text
  shortest := by
    intro bytes text rest found
    obtain ⟨count, middle, countTaken, found⟩ := run_bind_eq_ok_iff.mp found
    obtain ⟨bounded, countShort⟩ := (codec_nat lengthWidth).shortest countTaken
    obtain ⟨encoded, others, encodedTaken, found⟩ := run_bind_eq_ok_iff.mp found
    change ite _ _ _ = _ at encodedTaken
    split at encodedTaken
    · cases encodedTaken
    · rename_i enough
      cases encodedTaken
      split at found
      · rename_i decoded decodedEq
        obtain ⟨rfl, rfl⟩ := run_pure_eq_ok_iff.mp found
        have sameBytes := textOfBytes?_eq_some_iff.mp decodedEq
        have sameLength : decoded.toByteArray.data.toList.length = count := by
          rw [sameBytes, List.length_take]
          omega
        refine ⟨Nat.lt_of_le_of_lt (Nat.le_of_eq sameLength) bounded, ?_⟩
        rw [writeText, List.length_append, sameLength, List.length_drop]
        omega
      · cases found

end BytecodePatch.Wire
