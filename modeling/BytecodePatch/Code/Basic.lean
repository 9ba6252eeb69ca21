import BytecodePatch.Code.Chain
import BytecodePatch.Code.Rejection

/-!
# Code

Code is a sequence of instructions under names. The instructions stand in a chain, and the
name of an instruction, its handle, bears the identity of the code and the slot of the chain.
Slots are issued in turn and never again, so a handle names one instruction for good,
whatever is inserted or removed around it.

This module holds the code and the questions that can be asked of it. A handle is live when
it bears the identity of the code and its slot has an instruction. The lines of code are its
live handles with their instructions in program order. Nothing here or in the edits looks at
a handle of other code as if it were its own.
-/

namespace BytecodePatch

/-- An instruction under its name. -/
structure Line where
  handle : Handle
  instr : Instr Handle
deriving DecidableEq

def Line.refs (line : Line) : List Handle :=
  line.instr.refs

def Line.mapInstr (change : Instr Handle → Instr Handle) (line : Line) : Line :=
  { line with instr := change line.instr }

def Line.text (line : Line) : String :=
  line.handle.text ++ " " ++ line.instr.text

/-- Instructions under names. `tag` is the identity of the code. -/
structure Code where
  tag : Nat
  chain : Chain (Instr Handle)
deriving DecidableEq

namespace Code

def empty (tag : Nat) : Code :=
  ⟨tag, .empty⟩

def issued (code : Code) : Nat :=
  code.chain.issued

def handleOf (code : Code) (slot : Nat) : Handle :=
  ⟨code.tag, slot⟩

def slot? (code : Code) (handle : Handle) : Option Nat :=
  if handle.code = code.tag then some handle.slot else none

def lines (code : Code) : List Line :=
  code.chain.entries.map fun (slot, instr) => ⟨code.handleOf slot, instr⟩

def length (code : Code) : Nat :=
  code.chain.length

def isEmpty (code : Code) : Bool :=
  code.length == 0

def handles (code : Code) : List Handle :=
  code.lines.map Line.handle

def first? (code : Code) : Option Handle :=
  code.chain.first.map code.handleOf

def last? (code : Code) : Option Handle :=
  code.chain.last.map code.handleOf

def get? (code : Code) (handle : Handle) : Option (Instr Handle) :=
  (code.slot? handle).bind code.chain.value?

def contains (code : Code) (handle : Handle) : Bool :=
  (code.get? handle).isSome

def require (code : Code) (handle : Handle) : Except Rejection Unit :=
  if code.contains handle then .ok () else .error (.staleHandle handle)

def get (code : Code) (handle : Handle) : Except Rejection (Instr Handle) :=
  match code.get? handle with
  | some instr => .ok instr
  | none => .error (.staleHandle handle)

def position? (code : Code) (handle : Handle) : Option Nat :=
  if code.contains handle then code.handles.idxOf? handle else none

def position (code : Code) (handle : Handle) : Except Rejection Nat :=
  match code.position? handle with
  | some position => .ok position
  | none => .error (.staleHandle handle)

def handleAt? (code : Code) (position : Nat) : Option Handle :=
  code.handles[position]?

def handleAt (code : Code) (position : Nat) : Except Rejection Handle :=
  match code.handleAt? position with
  | some handle => .ok handle
  | none => .error (.positionOutOfRange position code.length)

def next? (code : Code) (handle : Handle) : Option Handle :=
  ((code.slot? handle).bind code.chain.next?).map code.handleOf

def previous? (code : Code) (handle : Handle) : Option Handle :=
  ((code.slot? handle).bind code.chain.previous?).map code.handleOf

/-- The handle that so many steps along the code lead to. -/
def skip? (code : Code) : (steps : Nat) → Option Handle → Option Handle
  | 0, reached => reached
  | steps + 1, reached => code.skip? steps (reached.bind code.next?)

def referrers (code : Code) (target : Handle) : List Handle :=
  (code.lines.filter fun line => line.refs.contains target).map Line.handle

/-- Refuses an instruction unless its operand fits its opcode and it refers to live
instructions only. -/
def check (code : Code) (instr : Instr Handle) : Except Rejection Unit := do
  instr.checkShape
  match instr.refs.find? fun ref => !code.contains ref with
  | some ref => throw (.staleHandle ref)
  | none => return ()

/-- Refuses code in which some instruction refers to one that is not live; the first such
instruction is reported with the number of its dangling references. -/
def verify (code : Code) : Except Rejection Unit :=
  let dangling (line : Line) : Nat := (line.refs.filter fun ref => !code.contains ref).length
  match code.lines.zipIdx.find? fun (line, _) => 0 < dangling line with
  | some (line, position) => .error (.danglingBranch position (dangling line))
  | none => .ok ()

end Code

end BytecodePatch
