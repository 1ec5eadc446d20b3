import Lox.Proofs.Running.Tasks
import Lox.Session

namespace Lox

/-- What a session can be asked to do, with the fuel for it. -/
inductive Step
  | run (fuel : Nat) (source : String)
  | evaluate (fuel : Nat) (source : String)
  | writeTo (sink : Sink)

namespace Session

/-- The program that a text stands for, with its references numbered, and the session that has
learned their distances. A text with a fault stands for none. -/
def unit? (s : Session) (source : String) : Option (List (Stmt NodeId) × Session) :=
  let read := readProgram source
  let numbered := s.number read.value
  let resolved := numbered.2.resolve numbered.1
  if read.reports.isEmpty && resolved.reports.isEmpty then
    some (numbered.1, numbered.2.learn resolved.hops)
  else none

/-- The expression that a text stands for. -/
def expression? (source : String) : Option (Expr Unit) :=
  match (readExpression source).value, (readExpression source).reports with
  | some e, [] => some e
  | _, _ => none

/-- The program that a step runs. -/
def program? (s : Session) : Step → Option (List (Stmt NodeId))
  | .run _ source => (s.unit? source).map Prod.fst
  | _ => none

/-- The moment at which a step begins to run. -/
def start? (s : Session) : Step → Option Moment
  | .run fuel source =>
      (s.unit? source).map fun unit => ⟨fuel, .executeAll unit.1, unit.2.machine⟩
  | .evaluate fuel source =>
      (expression? source).map fun e => ⟨fuel, .evaluate (e.numbered s.nextNode).1, s.machine⟩
  | .writeTo _ => none

/-- The step comes to this moment. -/
def Passes (s : Session) (step : Step) (x : Moment) : Prop :=
  ∃ start ∈ s.start? step, Within start x

/-- What a session answers to a step, and the session afterwards. -/
def take (s : Session) : Step → Answer × Session
  | .run fuel source => s.run fuel source
  | .evaluate fuel source => s.evaluate fuel source
  | .writeTo sink => (.completed, s.writingTo sink)

/-- The session after steps, of which some may have been cut off. -/
def after (s : Session) (steps : List Step) : Session :=
  steps.foldl (fun s step => (s.take step).2) s

/-- The session after steps that have all ended, the last of them first in the list. Each step is
listed with the session that it was taken in. -/
inductive Reached (clock : Nat → Float) : List (Session × Step) → Session → Prop
  | new : Reached clock [] (.new clock)
  | step {history : List (Session × Step)} {s : Session} (h : Reached clock history s)
      (step : Step) (hends : (s.take step).1 ≠ .unfinished) :
      Reached clock ((s, step) :: history) (s.take step).2

/-- A scope of this kind was made by one of the steps. -/
def Made (history : List (Session × Step)) (kind : FrameKind) (scope : ScopeId) : Prop :=
  ∃ s step x, (s, step) ∈ history ∧ s.Passes step x ∧ x.makes? = some kind ∧
    x.machine.scopes.size = scope

theorem unit?_eq_some_iff {s s' : Session} {source : String} {program : List (Stmt NodeId)} :
    s.unit? source = some (program, s') ↔
      ∃ tree, readProgram source = ⟨tree, []⟩ ∧ program = (s.number tree).1 ∧
        ((s.number tree).2.resolve program).reports = [] ∧
        s' = (s.number tree).2.learn ((s.number tree).2.resolve program).hops := by
  unfold unit?
  dsimp only
  constructor
  · intro h
    split at h
    · rename_i hempty
      rw [Bool.and_eq_true, List.isEmpty_iff, List.isEmpty_iff] at hempty
      cases h
      exact ⟨_, by rw [← hempty.1], rfl, hempty.2, rfl⟩
    · cases h
  · rintro ⟨tree, hread, rfl, hresolved, rfl⟩
    simp [hread, hresolved]

theorem run_of_unit? {s s' : Session} {source : String} {program : List (Stmt NodeId)}
    (h : s.unit? source = some (program, s')) (fuel : Nat) :
    s.run fuel source =
      s'.conclude (fun _ => .completed) (Machine.interpret fuel program s'.machine) := by
  obtain ⟨tree, hread, rfl, hresolved, rfl⟩ := unit?_eq_some_iff.mp h
  simp [run, hread, hresolved]

/-- A text with a fault changes nothing, but its references may have been numbered. -/
theorem run_of_unit?_eq_none {s : Session} {source : String} (h : s.unit? source = none)
    (fuel : Nat) :
    ∃ faults, (s.run fuel source).1 = .staticErrors faults ∧
      ((s.run fuel source).2 = s ∨
        (s.run fuel source).2 = (s.number (readProgram source).value).2) := by
  unfold run
  dsimp only
  split
  · exact ⟨_, rfl, .inl rfl⟩
  · rename_i hread
    split
    · exact ⟨_, rfl, .inr rfl⟩
    · rename_i hresolved
      unfold unit? at h
      simp_all

/-- A run that ends leaves its machine at rest, whatever it answers. -/
theorem conclude_interpret {s : Session} {answer : Unit → Answer} {fuel : Nat}
    {program : List (Stmt NodeId)} {m : Machine}
    (hends : (s.conclude answer (Machine.interpret fuel program m)).1 ≠ .unfinished) :
    ∃ m', (s.conclude answer (Machine.interpret fuel program m)).2 =
        { s with machine := m'.atRest } ∧
      ((∃ flow, executeAll fuel program m = .done flow m') ∨
        ∃ fault, executeAll fuel program m = .failed fault m') := by
  unfold Machine.interpret at hends ⊢
  cases hrun : executeAll fuel program m with
  | done flow m' =>
      refine ⟨m', ?_, .inl ⟨flow, rfl⟩⟩
      dsimp only
      split <;> rfl
  | failed fault m' =>
      refine ⟨m', ?_, .inr ⟨fault, rfl⟩⟩
      dsimp only
      split <;> rfl
  | unfinished =>
      rw [hrun] at hends
      exact absurd rfl hends

theorem evaluate_of_expression? {s : Session} {source : String} {e : Expr Unit}
    (h : expression? source = some e) (fuel : Nat) :
    s.evaluate fuel source = s.evaluateExpr fuel e := by
  unfold expression? at h
  unfold evaluate
  split at h
  · rename_i hvalue hreports
    cases h
    simp [hvalue, hreports]
  · cases h

theorem evaluate_of_expression?_eq_none {s : Session} {source : String}
    (h : expression? source = none) (fuel : Nat) :
    ∃ faults, s.evaluate fuel source = (.staticErrors faults, s) := by
  unfold expression? at h
  unfold evaluate
  generalize readExpression source = read at h
  obtain ⟨value, reports⟩ := read
  cases value with
  | none => exact ⟨reports, rfl⟩
  | some e =>
      cases reports with
      | nil => cases h
      | cons fault faults => exact ⟨fault :: faults, rfl⟩

end Session

end Lox
