import Lox.Proofs.Discipline.Sessions
import Lox.Proofs.Marks.Statements

/-!
No run meets an operator that is none.

The trees that are read have their operators in proper parts, and the functions of a session are
parts of those trees for as long as it lasts. An operator fails as such only where it is improper,
so a session never answers that it did.
-/

namespace Lox

namespace Discipline

/-- Only the marks matter. -/
def ofMarks (P : Mark → Prop) : Discipline where
  mark := P
  moment _ := True
  scope _ := True
  object _ := True
  instance_ _ _ := True
  function _ _ := True
  method _ _ := True
  heap _ := True
  outermost := trivial
  newScope _ := trivial
  newObject _ := trivial
  newInstance _ := trivial
  declared _ _ _ := trivial
  declaredMethod _ _ := trivial
  bound _ _ _ := trivial
  instance_extends _ _ := trivial
  function_extends _ _ := trivial
  heap_push _ _ _ := trivial
  heap_receive _ _ _ := trivial
  heap_define _ _ _ _ _ _ := trivial
  heap_addInstance _ := trivial
  heap_setField _ _ _ _ := trivial

end Discipline

section Wordings

variable {w : String} (hw : w = "Invalid unary operator." ∨ w = "Invalid binary operator.")
include hw

/-- A wording with a name or a number in it begins with another letter. -/
theorem ne_of_head? {wording : String} (h : wording.toList.head? ≠ some 'I') : wording ≠ w := by
  rintro rfl
  rcases hw with rfl | rfl <;> simp at h

theorem LexicalFault.message_ne (fault : LexicalFault) : fault.message ≠ w := by
  delta message
  cases fault with
  | unexpectedCharacter c => exact ne_of_head? hw (by simp)
  | unterminatedString => rcases hw with rfl | rfl <;> simp

theorem SyntaxFault.message_ne (fault : SyntaxFault) : fault.message ≠ w := by
  delta message
  cases fault with
  | missingName | missing => exact ne_of_head? hw (by simp)
  | _ => rcases hw with rfl | rfl <;> simp

theorem ResolutionFault.message_ne (fault : ResolutionFault) : fault.message ≠ w := by
  delta message
  cases fault <;> rcases hw with rfl | rfl <;> simp

theorem SinkFault.message_ne (fault : SinkFault) : fault.message ≠ w := by
  delta message
  cases fault <;> rcases hw with rfl | rfl <;> simp

theorem RuntimeFault.eq_of_message {fault : RuntimeFault} (h : fault.message = w) :
    (w = "Invalid unary operator." ∧ fault = .notUnaryOperator) ∨
      (w = "Invalid binary operator." ∧ fault = .notBinaryOperator) := by
  delta message at h
  cases fault with
  | undefinedVariable | undefinedProperty | wrongArgumentCount =>
      exact absurd h (ne_of_head? hw (by simp))
  | notUnaryOperator => exact .inl ⟨h.symm, rfl⟩
  | notBinaryOperator => exact .inr ⟨h.symm, rfl⟩
  | _ => rcases hw with rfl | rfl <;> simp at h

theorem Diagnostic.exists_of_message {d : Diagnostic} (h : d.message = w) :
    ∃ t, d = .runtime t .notUnaryOperator ∨ d = .runtime t .notBinaryOperator := by
  cases d with
  | lexical _ fault => exact absurd h (fault.message_ne hw)
  | syntactic _ fault => exact absurd h (fault.message_ne hw)
  | resolution _ fault => exact absurd h (fault.message_ne hw)
  | output fault => exact absurd h (fault.message_ne hw)
  | runtime t fault =>
      rcases RuntimeFault.eq_of_message hw h with ⟨-, rfl⟩ | ⟨-, rfl⟩
      · exact ⟨t, .inl rfl⟩
      · exact ⟨t, .inr rfl⟩

end Wordings

namespace Session

variable {s s' : Session} {step : Step} {start : Moment}

theorem marks_of_unit? {source : String} {program : List (Stmt NodeId)}
    (h : s.unit? source = some (program, s')) :
    Parsing.StandIn (Scan.tokens source) (Stmt.marksAll program) := by
  obtain ⟨tree, hread, rfl, -⟩ := unit?_eq_some_iff.mp h
  have htree : tree = (Parsing.program (Scan.tokens source)).value := by
    exact (congrArg Parsing.Parsed.value hread).symm
  have hmarks : Stmt.marksAll (s.number tree).1 = Stmt.marksAll tree :=
    Stmt.marksAll_numbered s.nextNode tree
  rw [hmarks, htree]
  exact Parsing.standIn_program _

theorem marks_of_expression? {source : String} {e : Expr Unit} (h : expression? source = some e)
    (next : NodeId) : Parsing.StandIn (Scan.tokens source) (e.numbered next).1.marks := by
  have hvalue : (Parsing.singleExpression (Scan.tokens source)).value = some e := by
    unfold expression? at h
    split at h
    · rename_i hvalue _
      cases h
      exact hvalue
    · cases h
  have hmarks := Parsing.standIn_singleExpression (Scan.tokens source)
  rw [hvalue] at hmarks
  rw [Expr.marks_numbered]
  exact hmarks

theorem marks_of_start? (hstart : s.start? step = some start) :
    ∃ source, Parsing.StandIn (Scan.tokens source) start.task.marks := by
  cases step with
  | run fuel source =>
      obtain ⟨⟨program, s'⟩, hunit, rfl⟩ := Option.map_eq_some_iff.mp hstart
      exact ⟨source, marks_of_unit? hunit⟩
  | evaluate fuel source =>
      obtain ⟨e, he, rfl⟩ := Option.map_eq_some_iff.mp hstart
      exact ⟨source, marks_of_expression? he s.nextNode⟩
  | writeTo sink => cases hstart

/-- Every step obeys the grammar. -/
theorem obeys_proper (s : Session) (step : Step) : Step.Obeys (.ofMarks Mark.Proper) s step where
  marked start hstart := by
    obtain ⟨source, hmarks⟩ := marks_of_start? hstart
    exact fun k hk => (hmarks k hk).1
  moments _ _ := trivial

/-- The functions of a session have their tokens in proper parts. -/
theorem keeps_proper_after (steps : List Step)
    (h : (Discipline.ofMarks Mark.Proper).Keeps s.machine)
    (hrest : s.AtRest) : (Discipline.ofMarks Mark.Proper).Keeps (s.after steps).machine := by
  induction steps generalizing s with
  | nil => exact h
  | cons step steps ih => exact ih (keeps_take h (obeys_proper s step) hrest) (hrest.take step)

/-- Whatever a list of tokens is, and whatever is reported of it, the trees that are read from it
apply only the operators that there are, each of them as what it is, and assign only to names and
properties. So no session is ever told that a token is no operator, however many steps it takes and
whichever of them failed or were cut off. -/
theorem operators_valid :
    (∀ tokens : List Token,
        (∀ k ∈ Stmt.marksAll (Parsing.program tokens).value, k.Proper) ∧
          ∀ e ∈ (Parsing.singleExpression tokens).value, ∀ k ∈ e.marks, k.Proper) ∧
      ∀ (clock : Nat → Float) (steps : List Step) (step : Step) (fault : Diagnostic),
        (((new clock).after steps).take step).1 = .runtimeError fault →
          fault.message ≠ "Invalid unary operator." ∧
            fault.message ≠ "Invalid binary operator." := by
  refine ⟨fun tokens => ⟨fun k hk => (Parsing.standIn_program tokens k hk).1, ?_⟩, ?_⟩
  · intro e he k hk
    have hmarks := Parsing.standIn_singleExpression tokens
    rw [he] at hmarks
    exact (hmarks k hk).1
  · intro clock steps step fault hfault
    have hkeeps := keeps_proper_after steps (Discipline.keeps_new trivial) (atRest_new clock)
    have hexplains := explains_of_take hkeeps (obeys_proper _ step) hfault
    -- Only the faults of operators are worded so, and the operators of the text are proper.
    have hnever : ∀ w, w = "Invalid unary operator." ∨ w = "Invalid binary operator." →
        fault.message ≠ w := by
      intro w hw hmessage
      obtain ⟨t, rfl | rfl⟩ := Diagnostic.exists_of_message hw hmessage
      · obtain ⟨hproper, himproper⟩ := hexplains.unary t rfl
        exact himproper hproper
      · obtain ⟨hproper, himproper⟩ := hexplains.binary t rfl
        exact himproper hproper
    exact ⟨hnever _ (.inl rfl), hnever _ (.inr rfl)⟩

/-- The negation that stands for a faulty assignment, and one that is run on no number. -/
theorem operators_valid_of_negation :
    (let minus : Token := ⟨.symbol .minus, "-", 1⟩
      let equals : Token := ⟨.symbol .equal, "=", 1⟩
      let nil : Token := ⟨.keyword .nil_, "nil", 1⟩
      Parsing.singleExpression [minus, nil, equals, nil] =
          ⟨some (.unary minus (.literal .nil)), [.syntactic equals .invalidTarget]⟩ ∧
        (Mark.unary minus).Proper ∧
        ((Session.new fun _ => 0).run 9 "-nil;").1 =
          .runtimeError (.runtime minus .operandNotNumber) ∧
        RuntimeFault.operandNotNumber.message ≠ "Invalid unary operator.") := by
  intro minus equals nil
  have htree : Parsing.singleExpression [minus, nil, equals, nil] =
      ⟨some (.unary minus (.literal .nil)), [.syntactic equals .invalidTarget]⟩ := by
    cbv
  have hunit : (Session.new fun _ => 0).unit? "-nil;" =
      some ([.expression (.unary minus (.literal .nil))], _) :=
    unit?_eq_some_iff.mpr ⟨[.expression (.unary minus (.literal .nil))], by cbv, rfl, rfl, rfl⟩
  have hanswer : ((Session.new fun _ => 0).run 9 "-nil;").1 =
      .runtimeError (.runtime minus .operandNotNumber) := by
    rw [run_of_unit? hunit]
    rfl
  have hproper := (operators_valid.1 [minus, nil, equals, nil]).2 (.unary minus (.literal .nil))
    (by rw [htree]; rfl) (.unary minus) List.mem_cons_self
  have hmessage := operators_valid.2 (fun _ => 0) [] (.run 9 "-nil;") _ hanswer
  exact ⟨htree, hproper, hanswer, hmessage.1⟩

end Session

end Lox
