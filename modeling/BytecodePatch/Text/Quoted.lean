import BytecodePatch.Text.Hidden

/-!
# Quoted text

A text between double quotes, as listings and messages show it. A backslash stands
before a double quote and before a backslash; tab, line feed, carriage return and the
null character have a letter each; characters shown by number stand as their hexadecimal
number in braces; all else stands for itself.
-/

namespace BytecodePatch.Text

def quotedCharacter (character : Char) : List Char :=
  if character = '\x00' then ['\\', '0']
  else if character = '\t' then ['\\', 't']
  else if character = '\r' then ['\\', 'r']
  else if character = '\n' then ['\\', 'n']
  else if character = '\\' then ['\\', '\\']
  else if character = '"' then ['\\', '"']
  else if isShownByNumber character then
    ['\\', 'u', '\x7b'] ++ Nat.toDigits 16 character.toNat ++ ['\x7d']
  else [character]

def quoted (text : String) : String :=
  String.ofList ('"' :: text.toList.flatMap quotedCharacter ++ ['"'])

end BytecodePatch.Text
