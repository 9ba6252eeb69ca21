import BytecodePatch.Program.Lookup

/-!
# Inquiries

A computation that looks symbols up on its way and does nothing else from which another
computation could tell. It ends with a result, or asks a question and goes on with the
answer, or asks for the counters and goes on with them. It cannot touch the answers that
the lookup keeps.
-/

namespace BytecodePatch

/-- A computation that looks symbols up on its way. -/
inductive Inquiry (α : Type) where
  | done (result : α)
  | ask (query : Lookup.Query) (next : Except PatchError Symbol → Inquiry α)
  | count (next : Lookup.Counts → Inquiry α)

namespace Inquiry

variable {α β : Type}

protected def bind (next : α → Inquiry β) : Inquiry α → Inquiry β
  | done result => next result
  | ask query later => ask query fun answer => (later answer).bind next
  | count later => count fun counts => (later counts).bind next

instance : Monad Inquiry where
  pure := done
  bind inquiry next := inquiry.bind next

def question (query : Lookup.Query) : Inquiry (Except PatchError Symbol) :=
  ask query done

def run : Inquiry α → Lookup → α × Lookup
  | done result, lookup => (result, lookup)
  | ask query next, lookup =>
      let (answer, lookup) := lookup.ask query
      (next answer).run lookup
  | count next, lookup => (next lookup.counts).run lookup

end Inquiry

end BytecodePatch
