import Lox.Proofs.Running.Closed
import Lox.Proofs.Running.Fitting
import Lox.Proofs.Running.Sessions

/-!
Every run comes back to where it was.

However a part of a run ends, it is back in the scope in which it started, with as many calls in
progress. Nothing is asked of the machine or of the program for this. Between its steps a session is
therefore in the outermost scope, with no call in progress.
-/

namespace Lox

/-- However it ended, the run is back where it was on `m`. -/
def Ending.Resumes {α : Type} (m : Machine) : Ending α → Prop
  | .done _ m' => m.Resumes m'
  | .failed _ m' => m.Resumes m'
  | .unfinished => True

namespace Run

variable {α β : Type} {r : Run α} {m : Machine}

/-- From whatever machine it starts, the run comes back to where it was. -/
def Resumes (r : Run α) : Prop := ∀ m, (r m).Resumes m

theorem pure_resumes (value : α) : (pure value : Run α).Resumes := fun m => .refl m

theorem fail_resumes (fault : Diagnostic) : (fail fault : Run α).Resumes := fun m => .refl m

theorem unfinished_resumes : (unfinished : Run α).Resumes := fun _ => trivial

theorem Resumes.bind {k : α → Run β} (h : r.Resumes) (hk : ∀ a, (k a).Resumes) :
    (r >>= k).Resumes := by
  intro m
  rw [bind_apply]
  have hfirst := h m
  cases hr : r m with
  | done a m₁ =>
      rw [hr] at hfirst
      have hsecond := hk a m₁
      dsimp only
      cases hrest : k a m₁ with
      | done b m₂ | failed fault m₂ =>
          rw [hrest] at hsecond
          exact Machine.Resumes.trans hfirst hsecond
      | unfinished => trivial
  | failed fault m₁ =>
      rw [hr] at hfirst
      exact hfirst
  | unfinished => trivial

/-- The scope is left behind, whichever way out of the body is taken. -/
theorem Resumes.inScope (h : r.Resumes) (s : ScopeId) : (inScope s r).Resumes := by
  intro m
  have hbody := h { m with current := s }
  unfold Run.inScope
  dsimp only
  cases hr : r { m with current := s } with
  | done a m' | failed fault m' =>
      rw [hr] at hbody
      exact ⟨hbody.scopes, hbody.hops, rfl, hbody.depth⟩
  | unfinished => trivial

theorem Resumes.counted (h : r.Resumes) : (counted r).Resumes := by
  intro m
  have hbody := h { m with depth := m.depth + 1 }
  unfold Run.counted
  cases hr : r { m with depth := m.depth + 1 } with
  | done a m' | failed fault m' =>
      rw [hr] at hbody
      exact ⟨hbody.scopes, hbody.hops, hbody.current, by simp [hbody.depth]⟩
  | unfinished => trivial

theorem newScope_resumes (outer : ScopeId) : (newScope outer).Resumes :=
  fun m => ⟨.push m.scopes _, rfl, rfl, rfl⟩

theorem newInnerScope_resumes : newInnerScope.Resumes :=
  fun m => newScope_resumes m.current m

theorem define_resumes (s : ScopeId) (name : String) (value : Value) :
    (define s name value).Resumes :=
  fun m => ⟨.define m.scopes s name value, rfl, rfl, rfl⟩

theorem defineHere_resumes (name : Token) (value : Value) : (defineHere name value).Resumes :=
  fun m => define_resumes m.current name.lexeme value m

theorem newIdentity_resumes : newIdentity.Resumes := fun m => ⟨.refl m.scopes, rfl, rfl, rfl⟩

theorem newInstance_resumes : newInstance.Resumes := fun m => ⟨.refl m.scopes, rfl, rfl, rfl⟩

theorem setField_resumes (inst : Identity) (name : String) (value : Value) :
    (setField inst name value).Resumes :=
  fun m => ⟨.refl m.scopes, rfl, rfl, rfl⟩

theorem readClock_resumes : readClock.Resumes := fun m => ⟨.refl m.scopes, rfl, rfl, rfl⟩

theorem makeFunction_resumes (declaration : FunctionDecl NodeId) :
    (makeFunction declaration).Resumes :=
  fun m => ⟨.refl m.scopes, rfl, rfl, rfl⟩

theorem makeClass_resumes (name : Token) (methods : List (FunctionDecl NodeId)) :
    (makeClass name methods).Resumes :=
  fun m => ⟨.refl m.scopes, rfl, rfl, rfl⟩

theorem lookUp_resumes (node : NodeId) (name : Token) : (lookUp node name).Resumes := by
  intro m
  unfold lookUp
  dsimp only
  split <;> exact Machine.Resumes.refl m

theorem assign_resumes (node : NodeId) (name : Token) (value : Value) :
    (assign node name value).Resumes := by
  intro m
  unfold assign
  dsimp only
  split
  · rename_i scope _
    exact define_resumes scope name.lexeme value m
  · exact fail_resumes (α := Unit) _ m

theorem write_resumes (piece : String) : (write piece).Resumes := by
  intro m
  unfold write
  dsimp only
  split <;> exact ⟨.refl m.scopes, rfl, rfl, rfl⟩

theorem field?_resumes (inst : Identity) (name : String) : (field? inst name).Resumes :=
  fun m => .refl m

theorem checkCall_resumes (callee : Value) (count : Nat) (paren : Token) :
    (checkCall callee count paren).Resumes := by
  intro m
  cases hcheck : checkCall callee count paren m with
  | done _ m' =>
      obtain ⟨-, rfl⟩ := arity?_of_checkCall hcheck
      exact .refl m'
  | failed fault m' =>
      obtain rfl := machine_of_checkCall hcheck
      exact .refl m'
  | unfinished => trivial

theorem result_resumes (routine : Routine) (flow : Flow) : (result routine flow).Resumes := by
  intro m
  unfold result
  split
  · exact Machine.Resumes.refl m
  · cases flow <;> exact Machine.Resumes.refl m

/-- Every run comes back to where it was. -/
theorem resumes_closed : Closed fun r => r.Resumes where
  pure := pure_resumes
  fail := fail_resumes
  unfinished := unfinished_resumes
  bind := Resumes.bind
  inScope scope h := h.inScope scope
  counted := Resumes.counted
  newScope := newScope_resumes
  newInnerScope := newInnerScope_resumes
  define := define_resumes
  defineHere := defineHere_resumes
  lookUp := lookUp_resumes
  assign := assign_resumes
  newIdentity := newIdentity_resumes
  newInstance := newInstance_resumes
  field? := field?_resumes
  setField := setField_resumes
  write := write_resumes
  readClock := readClock_resumes
  makeFunction := makeFunction_resumes
  makeClass := makeClass_resumes
  checkCall := checkCall_resumes
  result := result_resumes

end Run

open Run

theorem allResume (n : Nat) : Everywhere (fun r => r.Resumes) n := resumes_closed.everywhere n

theorem Machine.Resumes.atRest_eq {m m' : Machine} (h : m.Resumes m')
    (hcurrent : m.current = globalScope) (hdepth : m.depth = 0) : m'.atRest = m' := by
  rw [Machine.atRest, ← hcurrent, ← hdepth, ← h.current, ← h.depth]

theorem interpret_atRest (fuel : Nat) (program : List (Stmt NodeId)) (m : Machine) :
    Machine.interpret fuel program m = .unfinished ∨
      ∃ m' : Machine, Machine.interpret fuel program m = .done () m'.atRest ∨
        ∃ fault, Machine.interpret fuel program m = .failed fault m'.atRest := by
  unfold Machine.interpret
  cases executeAll fuel program m with
  | done flow m' =>
      refine .inr ⟨m', ?_⟩
      dsimp only
      split
      · exact .inl rfl
      · exact .inr ⟨_, rfl⟩
  | failed fault m' =>
      refine .inr ⟨m', .inr ?_⟩
      dsimp only
      split <;> exact ⟨_, rfl⟩
  | unfinished => exact .inl rfl

namespace Session

variable {s : Session}

/-- The session is in the outermost scope, with no call in progress. -/
structure AtRest (s : Session) : Prop where
  current : s.machine.current = globalScope
  depth : s.machine.depth = 0

theorem atRest_new (clock : Nat → Float) : (new clock).AtRest := ⟨rfl, rfl⟩

theorem AtRest.run (h : s.AtRest) (fuel : Nat) (source : String) :
    (s.run fuel source).2.AtRest := by
  cases hunit : s.unit? source with
  | none =>
      obtain ⟨_, _, hsame | hnumbered⟩ := run_of_unit?_eq_none hunit fuel
      · rwa [hsame]
      · rw [hnumbered]
        exact ⟨h.current, h.depth⟩
  | some unit =>
      obtain ⟨program, s'⟩ := unit
      obtain ⟨tree, -, -, -, hs'⟩ := unit?_eq_some_iff.mp hunit
      have hs' : s'.AtRest := by
        rw [hs']
        exact ⟨h.current, h.depth⟩
      rw [run_of_unit? hunit]
      rcases interpret_atRest fuel program s'.machine with hrun | ⟨m', hrun | ⟨fault, hrun⟩⟩
      · rw [hrun]
        exact hs'
      · rw [hrun]
        exact ⟨rfl, rfl⟩
      · rw [hrun]
        exact ⟨rfl, rfl⟩

theorem AtRest.evaluate (h : s.AtRest) (fuel : Nat) (source : String) :
    (s.evaluate fuel source).2.AtRest := by
  cases he : expression? source with
  | none =>
      obtain ⟨faults, hsame⟩ := evaluate_of_expression?_eq_none (s := s) he fuel
      rwa [hsame]
  | some e =>
      rw [evaluate_of_expression? he, evaluateExpr]
      have hresumes := (allResume fuel).evaluate (e.numbered s.nextNode).1 s.machine
      dsimp only
      cases hrun : Lox.evaluate fuel (e.numbered s.nextNode).1 s.machine with
      | done v m' | failed fault m' =>
          rw [hrun] at hresumes
          exact ⟨hresumes.current.trans h.current, hresumes.depth.trans h.depth⟩
      | unfinished => exact ⟨h.current, h.depth⟩

theorem AtRest.take (h : s.AtRest) (step : Step) : (s.take step).2.AtRest := by
  cases step with
  | run fuel source => exact h.run fuel source
  | evaluate fuel source => exact h.evaluate fuel source
  | writeTo sink => exact ⟨h.current, h.depth⟩

theorem AtRest.after (h : s.AtRest) (steps : List Step) : (s.after steps).AtRest := by
  induction steps generalizing s with
  | nil => exact h
  | cons step steps ih => exact ih (h.take step)

/-- Whatever is run on whatever machine, and however it ends, it comes back to the scope and to the
number of calls with which it started. So a session is at rest after any steps, whatever it answered
to them. -/
theorem resumes_and_atRest_after :
    (∀ (fuel : Nat) (m : Machine),
        (∀ statement, (execute fuel statement m).Resumes m) ∧
        (∀ scope body, (Run.inScope scope (executeAll fuel body) m).Resumes m) ∧
        (∀ e, (Lox.evaluate fuel e m).Resumes m) ∧
        ∀ callee paren arguments, (callValue fuel callee paren arguments m).Resumes m) ∧
      ∀ clock steps, ((new clock).after steps).AtRest := by
  refine ⟨fun fuel m => ?_, fun clock steps => (atRest_new clock).after steps⟩
  have hall := allResume fuel
  refine ⟨fun statement => hall.execute statement m, fun scope body => ?_,
    fun e => hall.evaluate e m, fun callee paren arguments => ?_⟩
  · exact (hall.executeAll body).inScope scope m
  · exact hall.callValue callee paren arguments m

end Session

end Lox
