import Lox.Issuing.Rule
import Lox.Parsing.Program
import Lox.Token.Scan

namespace Lox.Issuing

open Parsing (Parsed stop contents declaration expression)

variable {first : NodeId}

/-- The declarations of `tokens`, after the statements and reports that are already known. -/
def declarationsAfter (stop : Token) (statements : Array (Stmt NodeId))
    (reports : Array Diagnostic) (tokens : List Token) :
    Issuer first → Parsed (List (Stmt NodeId)) × Issuer first := fun issuer =>
  match tokens with
  | [] => (⟨statements.toList, reports.toList⟩, issuer)
  | t :: rest =>
      match declaration (Rule first) stop t rest issuer with
      | (⟨statement, after, reports', _⟩, issuer) =>
          declarationsAfter stop (statements ++ statement.toList) (reports ++ reports') after issuer
termination_by tokens.length
decreasing_by assumption

/-- The statements of a program, without those that have a fault. -/
def program (tokens : List Token) : Issuer first → Parsed (List (Stmt NodeId)) × Issuer first :=
  declarationsAfter (stop tokens) #[] #[] (contents tokens)

/-- A list of tokens as a single expression. If tokens are left over the expression stands, with a
report. -/
def singleExpression (tokens : List Token) :
    Issuer first → Parsed (Option (Expr NodeId)) × Issuer first := fun issuer =>
  match expression (Rule first) (stop tokens) (contents tokens) issuer with
  | (⟨.accepted e [] reports, _⟩, issuer) => (⟨some e, reports⟩, issuer)
  | (⟨.accepted e (t :: _) reports, _⟩, issuer) =>
      (⟨some e, reports ++ [.syntactic t .missingEnd]⟩, issuer)
  | (⟨.refused fault _ reports, _⟩, issuer) => (⟨none, reports ++ [fault]⟩, issuer)

/-- The statements of a text, with the faults of its tokens before those of its structure. -/
def readProgram (first : NodeId) (source : String) :
    Parsed (List (Stmt NodeId)) × Issuer first :=
  let items := Scan.items source
  let (program, issuer) := program (items.filterMap Scan.Item.token?) (.new first)
  ({ program with reports := items.filterMap Scan.Item.diagnostic? ++ program.reports }, issuer)

/-- A text as a single expression. -/
def readExpression (first : NodeId) (source : String) :
    Parsed (Option (Expr NodeId)) × Issuer first :=
  let items := Scan.items source
  let (e, issuer) := singleExpression (items.filterMap Scan.Item.token?) (.new first)
  ({ e with reports := items.filterMap Scan.Item.diagnostic? ++ e.reports }, issuer)

end Lox.Issuing
