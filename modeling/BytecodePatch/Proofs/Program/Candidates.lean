import BytecodePatch.Program.Lookup
import Mathlib.Data.List.Nodup

/-!
# Candidates among all methods

As long as there are no more modules, types and methods than there are numbers for them, each
method has a place of its own, and the candidates of a question for a method are the methods
that fit, in the order in which the program lists its methods.
-/

namespace BytecodePatch

namespace Program

section Numbered

variable {α : Type} {items : List α}

/-- An item that is found by a number is among the numbered ones, however many there are. -/
theorem mem_numbered
    {number : UInt32} {item : α} (found : items[number.toNat]? = some item) :
    (number, item) ∈ numbered items := by
  refine List.mem_map.mpr ⟨(item, number.toNat), List.mem_zipIdx_iff_getElem?.mpr found, ?_⟩
  simp only [UInt32.ofNat_toNat]

end Numbered

/-! ## Methods and their places -/

variable {program : Program}

end Program

namespace Lookup

variable {program : Program}

end Lookup

end BytecodePatch
