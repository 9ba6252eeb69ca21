import BytecodePatch.Code.Basic

/-!
# Removal

A range of consecutive instructions is removed together. References that stay behind and
point into the range have to go somewhere: nowhere, in which case the removal is refused, to
a given instruction outside the range, or to the one that follows it. References among the
removed instructions never matter. A removal hands back the code as far as it got with it, also
when it is refused.
-/

namespace BytecodePatch

/-- What becomes of references to removed instructions. -/
inductive Repair where
  | reject
  | to (handle : Handle)
  | following
deriving DecidableEq

namespace Code

/-- The handles of `count` instructions from one on, and the handle after them. There is
none if the code ends among them. -/
def range? (code : Code) : (count : Nat) → Option Handle → Option (List Handle × Option Handle)
  | 0, following => some ([], following)
  | _ + 1, none => none
  | count + 1, some handle => do
      let (handles, following) ← code.range? count (code.next? handle)
      return (handle :: handles, following)

def intruding (code : Code) (range : List Handle) : List Handle :=
  (code.lines.filter fun line => !range.contains line.handle).flatMap fun line =>
    line.refs.filter range.contains

/-- Where references into a range go, of which `hit` is the first; `following` is the handle
after the range. -/
def repairTarget
    (code : Code) (range : List Handle) (following : Option Handle) (hit : Handle)
    (repair : Repair) :
    Except Rejection Handle :=
  let dangling : Rejection :=
    .danglingBranch ((code.position? hit).getD 0) (code.intruding range).length
  match repair with
  | .reject => .error dangling
  | .to handle =>
      if range.contains handle || !code.contains handle then .error (.invalidRepair handle)
      else .ok handle
  | .following =>
      match following with
      | some handle => .ok handle
      | none => .error dangling

def mapInstrs (code : Code) (change : Instr Handle → Instr Handle) : Code :=
  { code with chain := code.chain.mapValues change }

/-- Sends the references into a range where the repair wants them, if there are any. -/
def redirectIntruding
    (code : Code) (range : List Handle) (following : Option Handle) (repair : Repair) :
    Except Rejection Unit × Code :=
  match (code.intruding range).head? with
  | none => (.ok (), code)
  | some hit =>
      match code.repairTarget range following hit repair with
      | .error rejection => (.error rejection, code)
      | .ok destination => (.ok (), code.mapInstrs (Instr.redirect range destination))

/-- Takes out the instructions under handles, one after another; answers them. It stops at a
handle under which there is none. -/
def unlinkAll : List Handle → Code → Except Rejection (List (Instr Handle)) × Code
  | [], code => (.ok [], code)
  | handle :: handles, code =>
      match code.chain.unlink? handle.slot with
      | none => (.error (.staleHandle handle), code)
      | some (instr, chain) =>
          let (instrs, result) := unlinkAll handles { code with chain := chain }
          (instrs.map (instr :: ·), result)

/-- Removes `count` instructions from a live one on; answers them as they were when they
went, after any repair. The handles of a range are live, so that they can all be taken
out. -/
def removeRange
    (code : Code) (first : Handle) (count : Nat) (repair : Repair) :
    Except Rejection (List (Instr Handle)) × Code :=
  match code.require first with
  | .error rejection => (.error rejection, code)
  | .ok () =>
      if count = 0 then (.ok [], code)
      else
        match code.range? count (some first) with
        | none =>
            let last := (code.position? first).getD 0 + count - 1
            (.error (.positionOutOfRange last code.length), code)
        | some (range, following) =>
            match code.redirectIntruding range following repair with
            | (.error rejection, code) => (.error rejection, code)
            | (.ok (), code) => unlinkAll range code

def remove
    (code : Code) (handle : Handle) (repair : Repair) :
    Except Rejection (Instr Handle) × Code :=
  match code.removeRange handle 1 repair with
  | (.error rejection, code) => (.error rejection, code)
  | (.ok [], code) => (.error (.staleHandle handle), code)
  | (.ok (instr :: _), code) => (.ok instr, code)

def removeAt
    (code : Code) (position : Nat) (repair : Repair) :
    Except Rejection (Instr Handle) × Code :=
  match code.handleAt position with
  | .error rejection => (.error rejection, code)
  | .ok handle => code.remove handle repair

/-- Removes `count` instructions from a position on; answers them. -/
def removeRangeAt
    (code : Code) (position count : Nat) (repair : Repair) :
    Except Rejection (List (Instr Handle)) × Code :=
  match code.handleAt position with
  | .error rejection => (.error rejection, code)
  | .ok handle => code.removeRange handle count repair

/-! ## Memory -/

/-- The least number of handles that no allocation holds. A handle takes eight bytes, and an
allocation has fewer than `2 ^ 63` of them. -/
def capacity : Nat :=
  Nat.pow 2 63 / 8

/-- The removal of a range with the allocation for its handles, which is made once the first
one is found live, for as many as were asked for. If none can be made, the call panics: it has
no answer. -/
def removeRange?
    (code : Code) (first : Handle) (count : Nat) (repair : Repair) :
    Option (Except Rejection (List (Instr Handle)) × Code) :=
  if code.contains first && capacity ≤ count then none
  else some (code.removeRange first count repair)

def removeRangeAt?
    (code : Code) (position count : Nat) (repair : Repair) :
    Option (Except Rejection (List (Instr Handle)) × Code) :=
  match code.handleAt position with
  | .error rejection => some (.error rejection, code)
  | .ok handle => code.removeRange? handle count repair

end Code

end BytecodePatch
