import BytecodePatch.Program.Basic

/-!
# Listings

The listing of a body for human readers: a line for each instruction with its position, and
a line with a label before each instruction that some branch refers to. Labels are numbered
in program order, and symbols are shown by name. Positions are padded with zeros to the
width of the last one.
-/

namespace BytecodePatch

/-- The texts that switch a style of a listing on, one for each part that has a style, and
the text that switches it off. -/
structure Palette where
  symbol : String
  label : String
  string : String
  muted : String
  reset : String

def Palette.terminal : Palette where
  symbol := "\x1b[34m"
  label := "\x1b[36m"
  string := "\x1b[32m"
  muted := "\x1b[2m"
  reset := "\x1b[0m"

def Palette.plain : Palette :=
  ⟨"", "", "", "", ""⟩

def decimalWidth (number : Nat) : Nat :=
  if number < 10 then 1 else decimalWidth (number / 10) + 1
termination_by number

def positionWidth (count : Nat) : Nat :=
  decimalWidth (count - 1)

def paddedNumber (width number : Nat) : String :=
  let digits := Nat.toDigits 10 number
  String.ofList (List.replicate (width - digits.length) '0' ++ digits)

/-- The live handles that some instruction refers to, in program order. The number of a
label is the place of its handle among them. -/
def Code.labelled (code : Code) : List Handle :=
  let targeted := code.lines.flatMap Line.refs
  code.handles.filter targeted.contains

namespace Listing

def labelText (palette : Palette) (number : Nat) : String :=
  palette.label ++ "L" ++ toString number ++ palette.reset

def refText (palette : Palette) (labels : List Handle) (handle : Handle) : String :=
  match labels.idxOf? handle with
  | some number => labelText palette number
  | none => handle.text

def operandText
    (program : Program) (palette : Palette) (labels : List Handle) :
    Operand Handle → String
  | .none => ""
  | .literal (.string value) => palette.string ++ Text.quoted value ++ palette.reset
  | .literal value => value.text
  | .symbol value => palette.symbol ++ program.nameOf value ++ palette.reset
  | .localSlot index => toString index
  | .argument index => toString index
  | .target handle => refText palette labels handle
  | .targets handles =>
      palette.muted ++ "(" ++ palette.reset ++
        String.intercalate ", " (handles.map (refText palette labels)) ++
        palette.muted ++ ")" ++ palette.reset

def lineText
    (program : Program) (palette : Palette) (labels : List Handle)
    (width position : Nat) (line : Line) :
    String :=
  let label := match labels.idxOf? line.handle with
    | some number => labelText palette number ++ ":\n"
    | none => ""
  let operand := operandText program palette labels line.instr.operand
  label ++ "  " ++ palette.muted ++ paddedNumber width position ++ palette.reset ++ "  " ++
    line.instr.opcode.mnemonic ++ (if operand = "" then "" else " " ++ operand) ++ "\n"

end Listing

def Body.listing (body : Body) (program : Program) (palette : Palette) : String :=
  let labels := body.code.labelled
  let width := positionWidth body.code.length
  String.join (body.code.lines.zipIdx.map fun (line, position) =>
    Listing.lineText program palette labels width position line)

def Program.methodListing?
    (program : Program) (place : MemberPlace) (palette : Palette) :
    Option String := do
  let type ← program.type? place.owner
  let method ← program.method? place
  let body := match method.body with
    | some body => body.listing program palette
    | none => "  (no body)\n"
  return method.returnType ++ " " ++ palette.symbol ++ type.name ++ "::" ++
    method.paramSignature ++ palette.reset ++ "\n" ++ body

end BytecodePatch
