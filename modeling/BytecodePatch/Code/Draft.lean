import BytecodePatch.Code.Insertion

/-!
# Drafts

A draft is code written with labels. A label is marked before an entry and names the
instruction that the entry becomes; branches and switches name labels, before or after
their mark. Assembling a draft resolves the labels.

A label that is marked twice is remembered, and the next assembly reports it. That report
is made once: a later assembly resolves the label to its last mark.
-/

namespace BytecodePatch

/-- An entry of a draft. -/
inductive Draft.Entry where
  | instr (instr : Instr Handle)
  | branch (opcode : Opcode) (label : String)
  | switch (labels : List String)

/-- Code with labels. Each label stands once, with the number of entries before its last
mark; `duplicate` is the first label that was marked again since the last assembly. -/
structure Draft where
  entries : List Draft.Entry
  marks : List (String × Nat)
  duplicate : Option String

namespace Draft

def empty : Draft :=
  ⟨[], [], none⟩

def setMark (label : String) (index : Nat) : List (String × Nat) → List (String × Nat)
  | [] => [(label, index)]
  | (otherLabel, otherIndex) :: marks =>
      if otherLabel = label then (label, index) :: marks
      else (otherLabel, otherIndex) :: setMark label index marks

def mark (draft : Draft) (label : String) : Draft :=
  { draft with
    marks := setMark label draft.entries.length draft.marks
    duplicate :=
      match draft.marks.lookup label with
      | some _ => draft.duplicate.or (some label)
      | none => draft.duplicate }

def add (draft : Draft) (entry : Entry) : Draft :=
  { draft with entries := draft.entries ++ [entry] }

def push (draft : Draft) (instr : Instr Handle) : Draft :=
  draft.add (.instr instr)

def branch (draft : Draft) (opcode : Opcode) (label : String) : Draft :=
  draft.add (.branch opcode label)

def switch (draft : Draft) (labels : List String) : Draft :=
  draft.add (.switch labels)

def resolve (draft : Draft) (tag : Nat) (label : String) : Except Rejection Handle :=
  match draft.marks.lookup label with
  | some index => .ok ⟨tag, index⟩
  | none => .error (.undefinedLabel label)

def instrOf (draft : Draft) (tag : Nat) (entry : Entry) : Except Rejection (Instr Handle) := do
  let instr ← match entry with
    | .instr instr => pure instr
    | .branch opcode label => do
        let handle ← draft.resolve tag label
        pure ⟨opcode, .target handle⟩
    | .switch labels => do
        let handles ← labels.mapM (draft.resolve tag)
        pure ⟨.switch, .targets handles⟩
  instr.checkShape
  return instr

def codeOf (tag : Nat) (instrs : List (Instr Handle)) : Code :=
  instrs.foldl (fun code instr => code.link instr none) (.empty tag)

def code (draft : Draft) (tag : Nat) : Except Rejection Code := do
  match draft.marks.find? fun (_, index) => draft.entries.length ≤ index with
  | some (label, _) => throw (.trailingLabel label)
  | none => pure ()
  let instrs ← draft.entries.mapM (draft.instrOf tag)
  let code := codeOf tag instrs
  code.verify
  return code

/-- The code that a draft stands for, with the given identity, and the draft afterwards. -/
def assemble (draft : Draft) (tag : Nat) : Except Rejection Code × Draft :=
  match draft.duplicate with
  | some label => (.error (.duplicateLabel label), { draft with duplicate := none })
  | none => (draft.code tag, draft)

end Draft

end BytecodePatch
