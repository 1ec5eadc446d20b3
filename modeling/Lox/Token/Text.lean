import Lox.Json
import Lox.Number.Text
import Lox.Token

namespace Lox.Token

/-- The kind, the lexeme, and the value that the token carries. -/
def display (t : Token) : String :=
  let value :=
    match t.kind with
    | .string contents => contents
    | .number n => Number.tokenText n
    | _ => "null"
  t.kind.name ++ " " ++ t.lexeme ++ " " ++ value

/-- A kind that carries a value is an object with that value under its name. -/
def kindJson (t : Token) : Json :=
  match t.kind with
  | .string contents => .object [(t.kind.name, .string contents)]
  | .number n => .object [(t.kind.name, .number (Number.jsonText n))]
  | kind => .string kind.name

def toJson (t : Token) : Json :=
  .object [("type", t.kindJson), ("lexeme", .string t.lexeme), ("line", .number (toString t.line))]

/-- The tokens of a program as one JSON text. -/
def listing (tokens : List Token) : String :=
  Json.pretty 0 (.array (tokens.map toJson))

end Lox.Token
