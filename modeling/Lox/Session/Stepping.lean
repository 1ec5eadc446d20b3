import Lox.Session
import Lox.Tree.References

namespace Lox.Session

/-- A program whose references are numbered, with the faults found in it. -/
structure Loaded where
  program : List (Stmt NodeId)
  faults : List Diagnostic

/-- Reads a text, and resolves what could be read of it if `resolving`. -/
def load (s : Session) (source : String) (resolving : Bool) : Loaded × Session :=
  let read := readProgram source
  let (program, s) := s.number read.value
  if resolving then
    let resolved := s.resolve program
    (⟨program, read.reports ++ resolved.reports⟩, s.learn resolved.hops)
  else (⟨program, read.reports⟩, s)

/-- How a step ends. -/
inductive StepAnswer
  /-- The whole program was run. -/
  | finished
  /-- One statement was executed. -/
  | flow (f : Flow)
  | failed (fault : Diagnostic)
  | noSuchStatement
  | unfinished

def concludeStep {α : Type} (s : Session) (answer : α → StepAnswer) :
    Ending α → StepAnswer × Session
  | .done value machine => (answer value, { s with machine })
  | .failed fault machine => (.failed fault, { s with machine })
  | .unfinished => (.unfinished, s)

/-- Executes the statement that the path leads to, and the whole program if the path is empty. -/
def step (fuel : Nat) (program : List (Stmt NodeId)) (s : Session) (path : List Nat) :
    StepAnswer × Session :=
  if path.isEmpty then
    s.concludeStep (fun _ => .finished) (Machine.interpret fuel program s.machine)
  else
    match Stmt.at? program path with
    | none => (.noSuchStatement, s)
    | some statement => s.concludeStep .flow (Lox.execute fuel statement s.machine)

end Lox.Session
