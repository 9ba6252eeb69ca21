/-!
# Blanks and cuts in text

The characters that count as blank in member signatures, the trimming of blanks
from the ends of a text, and the two cuts that signatures are read with: before the
first and after the last occurrence of a character. Everything here works on lists
of characters, so that each fact is an induction on the text.
-/

namespace BytecodePatch.Text

def isBlank (character : Char) : Bool :=
  let code := character.toNat
  (9 ≤ code && code ≤ 13) || code == 0x20 || code == 0x85 || code == 0xA0 ||
    code == 0x1680 || (0x2000 ≤ code && code ≤ 0x200A) || code == 0x2028 ||
    code == 0x2029 || code == 0x202F || code == 0x205F || code == 0x3000

def trimStart (text : List Char) : List Char :=
  text.dropWhile isBlank

def trimEnd (text : List Char) : List Char :=
  (text.reverse.dropWhile isBlank).reverse

def trim (text : List Char) : List Char :=
  trimEnd (trimStart text)

def trimmed (text : String) : String :=
  String.ofList (trim text.toList)

def cutFirst? (mark : Char) : List Char → Option (List Char × List Char)
  | [] => none
  | character :: rest =>
      if character = mark then some ([], rest)
      else (cutFirst? mark rest).map fun (left, right) => (character :: left, right)

def cutLast? (mark : Char) : List Char → Option (List Char × List Char)
  | [] => none
  | character :: rest =>
      match cutLast? mark rest with
      | some (left, right) => some (character :: left, right)
      | none => if character = mark then some ([], rest) else none

end BytecodePatch.Text
