import Lox.Evaluation
import Lox.Parsing.Program
import Lox.Token.Scan
import Lox.Tree.Numbering

/-!
Sessions: one machine that is given one text after another.

Each text is a unit. It is read and resolved as a whole, and nothing of it runs if that shows a
fault. What units define stays defined for later ones, whether or not they end with a fault.
-/

namespace Lox

open Parsing (Parsed)

/-- The statements of a text, with the faults of its tokens before those of its structure. -/
def readProgram (source : String) : Parsed (List (Stmt Unit)) :=
  let items := Scan.items source
  let program := Parsing.program (items.filterMap Scan.Item.token?)
  { program with reports := items.filterMap Scan.Item.diagnostic? ++ program.reports }

/-- A text as a single expression. -/
def readExpression (source : String) : Parsed (Option (Expr Unit)) :=
  let items := Scan.items source
  let e := Parsing.singleExpression (items.filterMap Scan.Item.token?)
  { e with reports := items.filterMap Scan.Item.diagnostic? ++ e.reports }

structure Session where
  machine : Machine
  /-- The identity of the next node that refers to a name. -/
  nextNode : NodeId

/-- What a session answers to a text. -/
inductive Answer
  | completed
  | value (v : Value)
  | staticErrors (faults : List Diagnostic)
  | runtimeError (fault : Diagnostic)
  /-- The work that was allowed did not suffice. -/
  | unfinished

namespace Session

def new (clock : Nat → Float) : Session := ⟨.new clock, 0⟩

/-- The text that the last unit wrote. -/
def output (s : Session) : String := s.machine.sink.text

/-- The names of the globals, in the order of their characters. -/
def globalNames (s : Session) : List String := s.machine.scopes.sortedNames globalScope

/-- The session with a new sink for what comes next. -/
def writingTo (s : Session) (sink : Sink) : Session :=
  { s with machine := { s.machine with sink } }

/-- The session after a run, with an answer for each ending. What is cut off leaves no state, and
the session is as before. -/
def conclude {α : Type} (s : Session) (answer : α → Answer) : Ending α → Answer × Session
  | .done value machine => (answer value, { s with machine })
  | .failed fault machine => (.runtimeError fault, { s with machine })
  | .unfinished => (.unfinished, s)

/-- The session that has numbered the references of a program, with the numbered program. -/
def number (s : Session) (program : List (Stmt Unit)) : List (Stmt NodeId) × Session :=
  let (program, nextNode) := Stmt.numberedList s.nextNode program
  (program, { s with nextNode })

/-- The faults of a numbered program against the rules of scopes, in this session. -/
def resolve (s : Session) (program : List (Stmt NodeId)) : Resolution.Resolved :=
  Resolution.resolve s.machine.globalNames program

/-- The session that knows these distances as well. -/
def learn (s : Session) (hops : Hops) : Session :=
  { s with machine := { s.machine with hops := s.machine.hops.merge hops } }

/-- Runs a text as a program, unless it has a fault. -/
def run (fuel : Nat) (s : Session) (source : String) : Answer × Session :=
  let read := readProgram source
  if !read.reports.isEmpty then (.staticErrors read.reports, s)
  else
    let (program, s) := s.number read.value
    let resolved := s.resolve program
    if !resolved.reports.isEmpty then (.staticErrors resolved.reports, s)
    else
      let s := s.learn resolved.hops
      s.conclude (fun _ => .completed) (Machine.interpret fuel program s.machine)

/-- Evaluates an expression in which every name is a global. -/
def evaluateExpr {Label : Type} (fuel : Nat) (s : Session) (e : Expr Label) : Answer × Session :=
  let (e, nextNode) := e.numbered s.nextNode
  let s := { s with nextNode }
  s.conclude .value (Lox.evaluate fuel e s.machine)

/-- Evaluates a text as a single expression, unless it has a fault. -/
def evaluate (fuel : Nat) (s : Session) (source : String) : Answer × Session :=
  let read := readExpression source
  match read.value, read.reports with
  | some e, [] => s.evaluateExpr fuel e
  | _, reports => (.staticErrors reports, s)

end Session

/-- More work than any run that ends can use up in practice. -/
def ampleFuel : Nat := Nat.pow 2 60

end Lox
