import Lox.Text.CharacterClass

namespace Lox.Quoted

/-- A character that shows nothing, or only changes the look of the one before it, is written by its
code. -/
def needsCode (c : Char) : Bool :=
  CharacterClass.extending.contains c || CharacterClass.ignorable.contains c ||
    CharacterClass.formless.contains c

def escape (c : Char) : List Char :=
  if c = '"' then ['\\', '"']
  else if c = '\\' then ['\\', '\\']
  else if c = '\t' then ['\\', 't']
  else if c = '\r' then ['\\', 'r']
  else if c = '\n' then ['\\', 'n']
  else if c = '\x00' then ['\\', '0']
  else if needsCode c then '\\' :: 'u' :: '\x7b' :: Nat.toDigits 16 c.toNat ++ ['\x7d']
  else [c]

def quote (text : String) : String :=
  String.ofList ('"' :: text.toList.flatMap escape ++ ['"'])

end Lox.Quoted
