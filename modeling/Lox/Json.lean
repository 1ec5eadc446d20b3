namespace Lox

/-- A JSON value. A number is given by its text. -/
inductive Json
  | number (text : String)
  | string (contents : String)
  | array (items : List Json)
  | object (members : List (String × Json))

namespace Json

/-- A control character is written by its short escape, if it has one, or else by its two
hexadecimal digits. -/
def escape (c : Char) : List Char :=
  if c = '"' then ['\\', '"']
  else if c = '\\' then ['\\', '\\']
  else if c = '\x08' then ['\\', 'b']
  else if c = '\x0c' then ['\\', 'f']
  else if c = '\n' then ['\\', 'n']
  else if c = '\r' then ['\\', 'r']
  else if c = '\t' then ['\\', 't']
  else if c < ' ' then
    ['\\', 'u', '0', '0', Nat.digitChar (c.toNat / 16), Nat.digitChar (c.toNat % 16)]
  else [c]

def quoted (contents : String) : String :=
  String.ofList ('"' :: contents.toList.flatMap escape ++ ['"'])

mutual

/-- The text on one line, without spaces. -/
def compact : Json → String
  | number text => text
  | string contents => quoted contents
  | array items => "[" ++ ",".intercalate (compactItems items) ++ "]"
  | object members => "\x7b" ++ ",".intercalate (compactMembers members) ++ "\x7d"

def compactItems : List Json → List String
  | [] => []
  | item :: items => item.compact :: compactItems items

def compactMembers : List (String × Json) → List String
  | [] => []
  | (key, value) :: members => (quoted key ++ ":" ++ value.compact) :: compactMembers members

end

/-- Parts between brackets, each on a line of its own and two places further in. -/
def bracketed (opening closing : String) (depth : Nat) (parts : List String) : String :=
  let margin (n : Nat) := "\n" ++ "".pushn ' ' (2 * n)
  if parts.isEmpty then opening ++ closing
  else
    opening ++ margin (depth + 1) ++ ("," ++ margin (depth + 1)).intercalate parts ++
      margin depth ++ closing

mutual

/-- The text of a value that stands `depth` levels deep, with one member per line. -/
def pretty (depth : Nat) : Json → String
  | number text => text
  | string contents => quoted contents
  | array items => bracketed "[" "]" depth (prettyItems (depth + 1) items)
  | object members => bracketed "\x7b" "\x7d" depth (prettyMembers (depth + 1) members)

def prettyItems (depth : Nat) : List Json → List String
  | [] => []
  | item :: items => item.pretty depth :: prettyItems depth items

def prettyMembers (depth : Nat) : List (String × Json) → List String
  | [] => []
  | (key, value) :: members =>
      (quoted key ++ ": " ++ value.pretty depth) :: prettyMembers depth members

end

end Json

end Lox
