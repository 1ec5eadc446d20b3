import Lox.Parsing.Statement

namespace Lox.Parsing

/-- The tokens before the end of the input. -/
def contents (tokens : List Token) : List Token := tokens.takeWhile fun t => !t.isEnd

/-- The token at which the input ends. -/
def stop (tokens : List Token) : Token := (tokens.find? Token.isEnd).getD (.endOfInput 1)

/-- What was read, and what was reported on the way. -/
structure Parsed (α : Type) where
  value : α
  reports : List Diagnostic

/-- The declarations of `tokens`, after the statements and reports that are already known. -/
def declarationsAfter (stop : Token) (statements : Array (Stmt Unit)) (reports : Array Diagnostic)
    (tokens : List Token) : Parsed (List (Stmt Unit)) :=
  match tokens with
  | [] => ⟨statements.toList, reports.toList⟩
  | t :: rest =>
      match declaration Reply stop t rest with
      | ⟨statement, after, reports', _⟩ =>
          declarationsAfter stop (statements ++ statement.toList) (reports ++ reports') after
termination_by tokens.length
decreasing_by assumption

/-- The statements of a program, without those that have a fault. -/
def program (tokens : List Token) : Parsed (List (Stmt Unit)) :=
  declarationsAfter (stop tokens) #[] #[] (contents tokens)

/-- A list of tokens as a single expression. If tokens are left over the expression stands, with a
report. -/
def singleExpression (tokens : List Token) : Parsed (Option (Expr Unit)) :=
  match (expression Reply (stop tokens) (contents tokens)).val with
  | .accepted e [] reports => ⟨some e, reports⟩
  | .accepted e (t :: _) reports => ⟨some e, reports ++ [.syntactic t .missingEnd]⟩
  | .refused fault _ reports => ⟨none, reports ++ [fault]⟩

end Lox.Parsing
