import Lox.Proofs.Relabelling.Trees
import Lox.Proofs.Running.Sessions
import Lox.Proofs.Scoping.Numbering

/-!
Ways to give identities to nodes.

A reader gives identities from a counter to the nodes that refer to names, while it reads a text or
afterwards, and to nodes of trees that it drops as well. A session may read its texts with any
reader. With the one that numbers a tree once it is read and has no fault, it is the session that
`Session.take` describes.
-/

namespace Lox

/-- What a reader makes of a text. The nodes are listed in the order in which they got their
identities, whether or not they are part of the tree. -/
structure Reading (α : Type) where
  value : α
  reports : List Diagnostic
  built : List (Reference NodeId)

/-- The references are different nodes among those that were built. -/
structure Chosen (built references : List (Reference NodeId)) : Prop where
  subset : references ⊆ built
  nodup : (references.map Reference.label).Nodup

/-- The identities are those from `first` on, in order. -/
def Consecutive (first : NodeId) (built : List (Reference NodeId)) : Prop :=
  built.map Reference.label = List.range' first built.length

/-- A way to read programs and single expressions with identities from a counter on. What is read
and reported is what `readProgram` and `readExpression` say. -/
structure Reader where
  program : NodeId → String → Reading (List (Stmt NodeId))
  expression : NodeId → String → Reading (Option (Expr NodeId))
  built_program : ∀ first source, Consecutive first (program first source).built
  built_expression : ∀ first source, Consecutive first (expression first source).built
  reports_program : ∀ first source, (program first source).reports = (readProgram source).reports
  reports_expression : ∀ first source,
    (expression first source).reports = (readExpression source).reports
  shape_program : ∀ first source, (readProgram source).reports = [] →
    Stmt.shapeAll (program first source).value = (readProgram source).value
  shape_expression : ∀ first source, (readExpression source).reports = [] →
    Expr.shapeOption (expression first source).value = (readExpression source).value
  chosen_program : ∀ first source, (readProgram source).reports = [] →
    Chosen (program first source).built (Stmt.referencesAll (program first source).value)
  chosen_expression : ∀ first source, (readExpression source).reports = [] →
    ∀ e ∈ (expression first source).value, Chosen (expression first source).built e.references

theorem Consecutive.bounds {first : NodeId} {built : List (Reference NodeId)}
    (h : Consecutive first built) :
    ∀ r ∈ built, first ≤ r.label ∧ r.label < first + built.length := by
  intro r hr
  have hmem : r.label ∈ built.map Reference.label := List.mem_map_of_mem hr
  rw [h] at hmem
  exact List.mem_range'_1.mp hmem

theorem Consecutive.append {first : NodeId} {before after : List (Reference NodeId)}
    (h : Consecutive first before) (h' : Consecutive (first + before.length) after) :
    Consecutive first (before ++ after) := by
  rw [Consecutive, List.map_append, h, h', List.length_append]
  exact List.range'_append_1 ..

/-- The session after as many identities have been used up. -/
def Session.past (s : Session) (built : List (Reference NodeId)) : Session :=
  { s with nextNode := s.nextNode + built.length }

namespace Reader

variable (R : Reader)

/-- Runs a text as a program, unless it has a fault. -/
def run (fuel : Nat) (s : Session) (source : String) : Answer × Session :=
  let read := R.program s.nextNode source
  let s := s.past read.built
  if !read.reports.isEmpty then (.staticErrors read.reports, s)
  else
    let resolved := s.resolve read.value
    if !resolved.reports.isEmpty then (.staticErrors resolved.reports, s)
    else
      let s := s.learn resolved.hops
      s.conclude (fun _ => .completed) (Machine.interpret fuel read.value s.machine)

/-- Evaluates a text as a single expression, unless it has a fault. -/
def evaluate (fuel : Nat) (s : Session) (source : String) : Answer × Session :=
  let read := R.expression s.nextNode source
  let s := s.past read.built
  match read.value, read.reports with
  | some e, [] => s.conclude .value (Lox.evaluate fuel e s.machine)
  | _, reports => (.staticErrors reports, s)

/-- What a session answers to a step, and the session afterwards. -/
def take (s : Session) : Step → Answer × Session
  | .run fuel source => R.run fuel s source
  | .evaluate fuel source => R.evaluate fuel s source
  | .writeTo sink => (.completed, s.writingTo sink)

def after (s : Session) (steps : List Step) : Session :=
  steps.foldl (fun s step => (R.take s step).2) s

end Reader

/-! ### Numbering afterwards -/

theorem consecutive_numberedList (first : NodeId) (tree : List (Stmt Unit)) :
    Consecutive first (Stmt.referencesAll (Stmt.numberedList first tree).1) := by
  rw [Consecutive, (Stmt.restoredAll (fun _ => ()) first tree).2.1, Stmt.length_numberedList]

theorem consecutive_numberedOption (first : NodeId) (e : Option (Expr Unit)) :
    Consecutive first (Expr.referencesOption (Expr.numberedOption first e).1) := by
  rw [Consecutive, (Expr.restoredOption (fun _ => ()) first e).2.1, Expr.length_numberedOption]

theorem Consecutive.chosen {first : NodeId} {built : List (Reference NodeId)}
    (h : Consecutive first built) : Chosen built built := by
  refine ⟨List.Subset.refl _, ?_⟩
  rw [h]
  exact List.nodup_range'

namespace Reader

/-- A program whose references are numbered if the text has no fault. -/
def numberedProgram (first : NodeId) (source : String) : Reading (List (Stmt NodeId)) :=
  let read := readProgram source
  let tree := (Stmt.numberedList first read.value).1
  ⟨tree, read.reports, if read.reports.isEmpty then Stmt.referencesAll tree else []⟩

def numberedExpression (first : NodeId) (source : String) : Reading (Option (Expr NodeId)) :=
  let read := readExpression source
  let e := (Expr.numberedOption first read.value).1
  ⟨e, read.reports, if read.reports.isEmpty then Expr.referencesOption e else []⟩

theorem built_numberedProgram {source : String} (h : (readProgram source).reports = [])
    (first : NodeId) :
    (numberedProgram first source).built =
      Stmt.referencesAll (Stmt.numberedList first (readProgram source).value).1 := by
  simp only [numberedProgram, h, List.isEmpty_nil, if_true]

theorem built_numberedExpression {source : String} (h : (readExpression source).reports = [])
    (first : NodeId) :
    (numberedExpression first source).built =
      Expr.referencesOption (Expr.numberedOption first (readExpression source).value).1 := by
  simp only [numberedExpression, h, List.isEmpty_nil, if_true]

/-- The reader that numbers a tree once it is read. -/
def numbering : Reader where
  program := numberedProgram
  expression := numberedExpression
  built_program first source := by
    unfold numberedProgram
    dsimp only
    split
    · exact consecutive_numberedList first _
    · rfl
  built_expression first source := by
    unfold numberedExpression
    dsimp only
    split
    · exact consecutive_numberedOption first _
    · rfl
  reports_program _ _ := rfl
  reports_expression _ _ := rfl
  shape_program first source _ := Stmt.shapeAll_numbered first _
  shape_expression first source _ := Expr.shapeOption_numbered first _
  chosen_program first source h := by
    rw [built_numberedProgram h]
    exact (consecutive_numberedList first _).chosen
  chosen_expression first source h e he := by
    have hvalue : (Expr.numberedOption first (readExpression source).value).1 = some e := he
    have hchosen := (consecutive_numberedOption first (readExpression source).value).chosen
    rw [built_numberedExpression h]
    rw [hvalue] at hchosen ⊢
    exact hchosen

theorem past_numberedExpression {source : String} (h : (readExpression source).reports = [])
    (s : Session) :
    s.past (numberedExpression s.nextNode source).built =
      { s with
        nextNode := (Expr.numberedOption s.nextNode (readExpression source).value).2 } := by
  have hnext := (Expr.restoredOption (fun _ => ()) s.nextNode (readExpression source).value).1
  rw [built_numberedExpression h, Session.past, Expr.length_numberedOption, ← hnext]

theorem past_numberedProgram {source : String} (h : (readProgram source).reports = [])
    (s : Session) :
    s.past (numberedProgram s.nextNode source).built = (s.number (readProgram source).value).2 := by
  have hnext := (Stmt.restoredAll (fun _ => ()) s.nextNode (readProgram source).value).1
  rw [built_numberedProgram h, Session.past, Stmt.length_numberedList, ← hnext]
  rfl

theorem numbering_run (fuel : Nat) (s : Session) (source : String) :
    numbering.run fuel s source = s.run fuel source := by
  have hread : (numbering.program s.nextNode source).reports = (readProgram source).reports := rfl
  have hvalue : (numbering.program s.nextNode source).value =
      (s.number (readProgram source).value).1 := rfl
  unfold run Session.run
  dsimp only
  rw [hread, hvalue]
  cases hreports : (readProgram source).reports with
  | nil =>
      rw [show numbering.program = numberedProgram from rfl, past_numberedProgram hreports s]
      simp only [List.isEmpty_nil, Bool.not_true, Bool.false_eq_true, if_false]
  | cons fault faults =>
      have hbuilt : (numbering.program s.nextNode source).built = [] := by
        simp [numbering, numberedProgram, hreports]
      rw [hbuilt]
      rfl

theorem numbering_evaluate (fuel : Nat) (s : Session) (source : String) :
    numbering.evaluate fuel s source = s.evaluate fuel source := by
  have hread : (numbering.expression s.nextNode source).reports = (readExpression source).reports :=
    rfl
  have hvalue : (numbering.expression s.nextNode source).value =
      (Expr.numberedOption s.nextNode (readExpression source).value).1 := rfl
  unfold evaluate Session.evaluate Session.evaluateExpr
  dsimp only
  rw [hread, hvalue]
  cases hreports : (readExpression source).reports with
  | nil =>
      rw [show numbering.expression = numberedExpression from rfl,
        past_numberedExpression hreports s]
      cases (readExpression source).value <;> rfl
  | cons fault faults =>
      have hbuilt : (numbering.expression s.nextNode source).built = [] := by
        simp [numbering, numberedExpression, hreports]
      rw [hbuilt]
      cases (readExpression source).value <;> rfl

/-- Numbering afterwards is what a session does. -/
theorem take_numbering : numbering.take = Session.take := by
  funext s step
  cases step with
  | run fuel source => exact numbering_run fuel s source
  | evaluate fuel source => exact numbering_evaluate fuel s source
  | writeTo sink => rfl

end Reader

end Lox
