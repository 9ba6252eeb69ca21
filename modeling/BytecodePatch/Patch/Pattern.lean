import BytecodePatch.Code.Basic
import BytecodePatch.Program.Basic

/-!
# Patterns

A pattern is a list of tests for consecutive instructions. It matches a window of code when
each test accepts the instruction at its place.
-/

namespace BytecodePatch

/-- A test of one instruction. -/
inductive Matcher where
  | any
  | opcode (opcode : Opcode)
  /-- The opcode and an operand that compares as equal. -/
  | exact (instr : Instr Handle)
  /-- The opcode and the symbol; a test for `call` also accepts `callvirt`. -/
  | symbol (opcode : Opcode) (symbol : Symbol)
  /-- A literal operand that compares as equal, under any opcode. -/
  | literal (literal : Literal)
  | loadLocal (index : UInt16)
  | storeLocal (index : UInt16)
  | loadArg (index : UInt16)
  /-- A named test of any other kind. -/
  | custom (name : String) (accepts : Instr Handle → Bool)

abbrev Pattern := List Matcher

namespace Matcher

def accepts (matcher : Matcher) (instr : Instr Handle) : Bool :=
  match matcher with
  | any => true
  | opcode wanted => instr.opcode == wanted
  | exact wanted => instr.agrees wanted
  | symbol wanted value =>
      (instr.opcode == wanted || (wanted == .call && instr.opcode.isCall)) &&
        instr.symbol? == some value
  | literal wanted => instr.literal?.any wanted.agrees
  | loadLocal index => instr.opcode == .loadLocal && instr.localSlot? == some index
  | storeLocal index => instr.opcode == .storeLocal && instr.localSlot? == some index
  | loadArg index => instr.opcode == .loadArg && instr.argument? == some index
  | custom _ accepts => accepts instr

def text : Matcher → String
  | any => "_"
  | opcode wanted => wanted.mnemonic
  | exact wanted => wanted.text
  | symbol wanted value => wanted.mnemonic ++ " " ++ value.text
  | literal wanted => wanted.text
  | loadLocal index => "ldloc " ++ toString index
  | storeLocal index => "stloc " ++ toString index
  | loadArg index => "ldarg " ++ toString index
  | custom name _ => "<" ++ name ++ ">"

def textIn (program : Program) : Matcher → String
  | symbol wanted value => wanted.mnemonic ++ " " ++ program.nameOf value
  | matcher => matcher.text

end Matcher

namespace Pattern

def text (pattern : Pattern) : String :=
  String.intercalate "; " (pattern.map Matcher.text)

def textIn (program : Program) (pattern : Pattern) : String :=
  String.intercalate "; " (pattern.map (Matcher.textIn program))

def matchesFront : Pattern → List Line → Bool
  | [], _ => true
  | _ :: _, [] => false
  | matcher :: matchers, line :: lines =>
      matcher.accepts line.instr && matchesFront matchers lines

/-- The handles of the window at the front of a list of lines, if the pattern matches it. -/
def windowAtFront? (pattern : Pattern) (lines : List Line) : Option (List Handle) :=
  if matchesFront pattern lines then some ((lines.take pattern.length).map Line.handle)
  else none

def windowAt? (pattern : Pattern) (code : Code) (position : Nat) : Option (List Handle) :=
  windowAtFront? pattern (code.lines.drop position)

end Pattern

end BytecodePatch
