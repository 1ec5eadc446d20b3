import Lox.Proofs.Running.Outcomes

namespace Lox

variable {α β : Type} {n : Nat} {m m' : Machine} {fault : Diagnostic}

namespace Run

theorem failed_cases {r : Run α} {k : α → Run β} (h : (r >>= k) m = .failed fault m') :
    r m = .failed fault m' ∨ ∃ v m₁, r m = .done v m₁ ∧ k v m₁ = .failed fault m' := by
  rw [bind_apply] at h
  cases hr : r m with
  | done v m₁ =>
      rw [hr] at h
      exact .inr ⟨v, m₁, rfl, h⟩
  | failed fault' m₁ =>
      rw [hr] at h
      cases h
      exact .inl rfl
  | unfinished =>
      rw [hr] at h
      cases h

theorem failed_inScope {scope : ScopeId} {body : Run α}
    (h : inScope scope body m = .failed fault m') :
    ∃ m₁, body { m with current := scope } = .failed fault m₁ ∧ m'.atRest = m₁.atRest := by
  unfold inScope at h
  dsimp only at h
  split at h
  · cases h
  · rename_i hbody
    cases h
    exact ⟨_, hbody, rfl⟩
  · cases h

theorem failed_counted {body : Run α} (h : counted body m = .failed fault m') :
    ∃ m₁, body m.countCall = .failed fault m₁ ∧ m'.atRest = m₁.atRest := by
  unfold counted at h
  split at h
  · cases h
  · rename_i hbody
    cases h
    exact ⟨_, hbody, rfl⟩
  · cases h

theorem failed_ofExcept {place : Token} {result : Except RuntimeFault α}
    (h : ofExcept place result m = .failed fault m') :
    ∃ f, result = .error f ∧ fault = .runtime place f := by
  cases result with
  | ok v => cases h
  | error f =>
      cases h
      exact ⟨f, rfl, rfl⟩

theorem failed_getProperty {object : Value} {name : Token}
    (h : getProperty object name m = .failed fault m') :
    fault = .runtime name .noProperties ∨
      fault = .runtime name (.undefinedProperty name.lexeme) := by
  cases object with
  | instance_ inst c =>
      simp only [getProperty, bind_apply, field?] at h
      cases hfound : (m.instances[inst]?).bind fun fields => fields.find? name.lexeme with
      | some v =>
          rw [hfound] at h
          cases h
      | none =>
          rw [hfound] at h
          cases hmethod : c.methods.find? name.lexeme with
          | some r =>
              rw [hmethod] at h
              cases h
          | none =>
              rw [hmethod] at h
              cases h
              exact .inr rfl
  | _ =>
      cases h
      exact .inl rfl

theorem failed_checkCall {callee : Value} {count : Nat} {paren : Token}
    (h : checkCall callee count paren m = .failed fault m') :
    fault = .runtime paren .notCallable ∨
      (∃ arity, fault = .runtime paren (.wrongArgumentCount arity count)) ∨
      fault = .runtime paren .stackOverflow := by
  unfold checkCall at h
  split at h
  · cases h
    exact .inl rfl
  · rename_i arity _
    split at h
    · cases h
      exact .inr (.inl ⟨arity, rfl⟩)
    · split at h
      · cases h
        exact .inr (.inr rfl)
      · cases h

theorem failed_writeAll {pieces : List String} (h : writeAll pieces m = .failed fault m') :
    fault = .output .full := by
  induction pieces generalizing m with
  | nil => cases h
  | cons piece pieces ih =>
      rcases failed_cases h with h | ⟨_, _, -, h⟩
      · unfold write at h
        dsimp only at h
        split at h <;> cases h
        rfl
      · exact ih h

theorem result_ne_failed {r : Routine} {flow : Flow} : result r flow m ≠ .failed fault m' := by
  unfold result
  split
  · exact fun h => by cases h
  · split <;> exact fun h => by cases h

end Run

/-- The fault is one that operators have. -/
def RuntimeFault.isOperational : RuntimeFault → Bool
  | operandNotNumber | operandsNotNumbers | operandsNotAddable | divisionByZero
  | notUnaryOperator | notBinaryOperator => true
  | _ => false

namespace Operator

variable {operator : Kind} {left right operand : Value} {f : RuntimeFault}

theorem isOperational_of_unary (h : unary operator operand = .error f) : f.isOperational := by
  unfold unary at h
  split at h
  · cases h
  · split at h <;> cases h
    rfl
  · cases h
    rfl

theorem isOperational_of_plus (h : plus left right = .error f) : f.isOperational := by
  unfold plus at h
  split at h
  · split at h <;> cases h
    rfl
  · split at h <;> cases h
    rfl
  · cases h
    rfl

theorem isOperational_of_arithmetic {a b : Float} (h : arithmetic operator a b = .error f) :
    f.isOperational := by
  unfold arithmetic at h
  split at h
  case h_3 =>
    split at h <;> cases h
    rfl
  all_goals cases h
  rfl

theorem isOperational_of_binary (h : binary operator left right = .error f) :
    f.isOperational := by
  unfold binary at h
  split at h
  · cases h
  · cases h
  · exact isOperational_of_plus h
  · split at h
    · split at h
      · exact isOperational_of_arithmetic h
      · cases h
        rfl
    · cases h
      rfl

end Operator

open Run

/-- The moment fails in its own last step, when all parts that it comes to are done. -/
inductive Moment.Raises (fault : Diagnostic) (m' : Machine) : Moment → Prop
  | unary {n : Nat} {m m₁ : Machine} {operator : Token} {e : Expr NodeId} {v : Value}
      (hv : evaluate n e m = .done v m₁)
      (h : ofExcept operator (Operator.unary operator.kind v) m₁ = .failed fault m') :
      Raises fault m' ⟨n + 1, .evaluate (.unary operator e), m⟩
  | binary {n : Nat} {m m₁ m₂ : Machine} {operator : Token} {left right : Expr NodeId}
      {a b : Value} (ha : evaluate n left m = .done a m₁) (hb : evaluate n right m₁ = .done b m₂)
      (h : ofExcept operator (Operator.binary operator.kind a b) m₂ = .failed fault m') :
      Raises fault m' ⟨n + 1, .evaluate (.binary left operator right), m⟩
  | property {n : Nat} {m m₁ : Machine} {object : Expr NodeId} {name : Token} {v : Value}
      (hv : evaluate n object m = .done v m₁) (h : getProperty v name m₁ = .failed fault m') :
      Raises fault m' ⟨n + 1, .evaluate (.get object name), m⟩
  | holder {n : Nat} {m m₁ : Machine} {object value : Expr NodeId} {name : Token} {v : Value}
      (hv : evaluate n object m = .done v m₁)
      (h : (failAt name .noFields : Run Value) m₁ = .failed fault m') :
      Raises fault m' ⟨n + 1, .evaluate (.set object name value), m⟩
  | lookUp {n : Nat} {m : Machine} {node : NodeId} {name : Token}
      (h : Run.lookUp node name m = .failed fault m') : Raises fault m' ⟨n, .lookUp node name, m⟩
  | assign {n : Nat} {m : Machine} {node : NodeId} {name : Token} {v : Value}
      (h : Run.assign node name v m = .failed fault m') :
      Raises fault m' ⟨n, .assign node name v, m⟩
  | check {n : Nat} {m : Machine} {callee : Value} {paren : Token} {vs : List Value}
      (h : checkCall callee vs.length paren m = .failed fault m') :
      Raises fault m' ⟨n + 1, .callValue callee paren vs, m⟩
  | print {n : Nat} {m m₁ : Machine} {e : Expr NodeId} {v : Value}
      (hv : evaluate n e m = .done v m₁) (h : Run.print v m₁ = .failed fault m') :
      Raises fault m' ⟨n + 1, .execute (.print e), m⟩

/-- The fault comes from the moment itself, or else from a part of it. What that part leaves is left
in the end, but for the place to which the run goes back. -/
def Moment.Explained (fault : Diagnostic) (m' : Machine) (x : Moment) : Prop :=
  x.Raises fault m' ∨ ∃ y m₁, Part x y ∧ y.ending = .failed fault m₁ ∧ m'.atRest = m₁.atRest

namespace Moment

theorem explained_of_part {x y : Moment} (hpart : Part x y) (h : y.ending = .failed fault m') :
    x.Explained fault m' :=
  .inr ⟨y, m', hpart, h, rfl⟩

theorem explained_of_evaluate {x : Moment} {e : Expr NodeId}
    (hpart : Part x ⟨n, .evaluate e, m⟩) (h : Lox.evaluate n e m = .failed fault m') :
    x.Explained fault m' :=
  explained_of_part hpart (Ending.map_eq_failed_iff.mpr h)

theorem explained_of_execute {x : Moment} {s : Stmt NodeId}
    (hpart : Part x ⟨n, .execute s, m⟩) (h : Lox.execute n s m = .failed fault m') :
    x.Explained fault m' :=
  explained_of_part hpart (Ending.map_eq_failed_iff.mpr h)

theorem explained_expression {e : Expr NodeId}
    (h : Lox.evaluate (n + 1) e m = .failed fault m') :
    Explained fault m' ⟨n + 1, .evaluate e, m⟩ := by
  cases e with
  | literal value => cases h
  | grouping inner => exact explained_of_evaluate .grouping h
  | unary operator operand =>
      rcases failed_cases h with h | ⟨v, m₁, hv, h⟩
      · exact explained_of_evaluate .operand h
      · exact .inl (.unary hv h)
  | binary left operator right =>
      rcases failed_cases h with h | ⟨a, m₁, ha, h⟩
      · exact explained_of_evaluate .left h
      · rcases failed_cases h with h | ⟨b, m₂, hb, h⟩
        · exact explained_of_evaluate (.right ha) h
        · exact .inl (.binary ha hb h)
  | logical left operator right =>
      rcases failed_cases h with h | ⟨v, m₁, hv, h⟩
      · exact explained_of_evaluate .deciding h
      · by_cases hdecides : Operator.decides operator.kind v
        · rw [if_pos hdecides] at h
          cases h
        · rw [if_neg hdecides] at h
          exact explained_of_evaluate (.undecided hv (by simpa using hdecides)) h
  | var node name => exact explained_of_part .var (Ending.map_eq_failed_iff.mpr h)
  | assign node name value =>
      rcases failed_cases h with h | ⟨v, m₁, hv, h⟩
      · exact explained_of_evaluate .assigned h
      · rcases failed_cases h with h | ⟨_, _, -, ⟨⟩⟩
        exact explained_of_part (.assign hv) (Ending.map_eq_failed_iff.mpr h)
  | call callee paren arguments =>
      rcases failed_cases h with h | ⟨v, m₁, hv, h⟩
      · exact explained_of_evaluate .callee h
      · rcases failed_cases h with h | ⟨vs, m₂, hvs, h⟩
        · exact explained_of_part (.arguments hv) h
        · exact explained_of_part (.call hv hvs) (Ending.map_eq_failed_iff.mpr h)
  | get object name =>
      rcases failed_cases h with h | ⟨v, m₁, hv, h⟩
      · exact explained_of_evaluate .object h
      · exact .inl (.property hv h)
  | set object name value =>
      rcases failed_cases h with h | ⟨v, m₁, hv, h⟩
      · exact explained_of_evaluate .holder h
      · cases v with
        | instance_ inst c =>
            rcases failed_cases h with h | ⟨_, _, -, h⟩
            · exact explained_of_evaluate (.held hv) h
            · cases h
        | _ => exact .inl (.holder hv h)
  | this node keyword => exact explained_of_part .this (Ending.map_eq_failed_iff.mpr h)

theorem explained_statement {s : Stmt NodeId} (h : Lox.execute (n + 1) s m = .failed fault m') :
    Explained fault m' ⟨n + 1, .execute s, m⟩ := by
  cases s with
  | expression e =>
      rcases failed_cases h with h | ⟨_, _, -, ⟨⟩⟩
      exact explained_of_evaluate .expression h
  | print e =>
      rcases failed_cases h with h | ⟨v, m₁, hv, h⟩
      · exact explained_of_evaluate .print h
      · rcases failed_cases h with h | ⟨_, _, -, ⟨⟩⟩
        exact .inl (.print hv h)
  | var name initial =>
      cases initial with
      | none => cases h
      | some e =>
          rcases failed_cases h with h | ⟨_, _, -, ⟨⟩⟩
          exact explained_of_evaluate .initial h
  | block body =>
      rw [execute_block] at h
      obtain ⟨m₁, h, hrest⟩ := failed_inScope h
      exact .inr ⟨_, m₁, .block, Ending.map_eq_failed_iff.mpr h, hrest⟩
  | branch condition consequent alternative =>
      rcases failed_cases h with h | ⟨v, m₁, hv, h⟩
      · exact explained_of_evaluate .condition h
      · by_cases htruthy : v.truthy
        · rw [if_pos htruthy] at h
          exact explained_of_execute (.consequent hv htruthy) h
        · rw [if_neg htruthy] at h
          cases alternative with
          | none => cases h
          | some alternative => exact explained_of_execute (.alternative hv htruthy) h
  | loop condition body =>
      rcases failed_cases h with h | ⟨v, m₁, hv, h⟩
      · exact explained_of_evaluate .loopCondition h
      · by_cases htruthy : v.truthy
        · rw [if_pos htruthy] at h
          rcases failed_cases h with h | ⟨flow, m₂, hflow, h⟩
          · exact explained_of_execute (.loopBody hv htruthy) h
          · cases flow with
            | normal => exact explained_of_execute (.loopAgain hv htruthy hflow) h
            | returned answer => cases h
        · rw [if_neg htruthy] at h
          cases h
  | function d => cases h
  | ret keyword value =>
      cases value with
      | none => cases h
      | some e =>
          rcases failed_cases h with h | ⟨_, _, -, ⟨⟩⟩
          exact explained_of_evaluate .answer h
  | class_ name methods => cases h

theorem explained_call {callee : Value} {vs : List Value}
    (h : Lox.invoke (n + 1) callee vs m = .failed fault m') :
    Explained fault m' ⟨n + 1, .invoke callee vs, m⟩ := by
  cases callee with
  | function f => exact explained_of_part .function (Ending.map_eq_failed_iff.mpr h)
  | class_ c =>
      rw [invoke_class] at h
      cases hr : c.initializer? with
      | none =>
          rw [hr] at h
          cases h
      | some r =>
          rw [hr] at h
          rcases failed_cases h with h | ⟨_, _, -, ⟨⟩⟩
          exact explained_of_part (.initializer hr) (Ending.map_eq_failed_iff.mpr h)
  | _ => cases h

theorem explained_of_failed {x : Moment} (h : x.ending = .failed fault m') :
    x.Explained fault m' := by
  obtain ⟨fuel, task, m⟩ := x
  cases task with
  | lookUp node name => exact .inl (.lookUp (Ending.map_eq_failed_iff.mp h))
  | assign node name v => exact .inl (.assign (Ending.map_eq_failed_iff.mp h))
  | bindMethod r receiver => cases h
  | evaluate e =>
      cases fuel with
      | zero => cases h
      | succ n => exact explained_expression (Ending.map_eq_failed_iff.mp h)
  | execute s =>
      cases fuel with
      | zero => cases h
      | succ n => exact explained_statement (Ending.map_eq_failed_iff.mp h)
  | invoke callee vs =>
      cases fuel with
      | zero => cases h
      | succ n => exact explained_call (Ending.map_eq_failed_iff.mp h)
  | evaluateAll es =>
      cases fuel with
      | zero => cases h
      | succ n =>
          cases es with
          | nil => cases h
          | cons e es =>
              rcases failed_cases h with h | ⟨v, m₁, hv, h⟩
              · exact explained_of_evaluate .firstOf h
              · rcases failed_cases h with h | ⟨_, _, -, ⟨⟩⟩
                exact explained_of_part (.othersOf hv) h
  | callValue callee paren vs =>
      cases fuel with
      | zero => cases h
      | succ n =>
          rcases failed_cases (Ending.map_eq_failed_iff.mp h) with hcheck | ⟨_, _, hcheck, hcall⟩
          · exact .inl (.check hcheck)
          · obtain ⟨_, rfl⟩ := Run.arity?_of_checkCall hcheck
            obtain ⟨m₁, hcall, hrest⟩ := failed_counted hcall
            exact .inr ⟨_, m₁, .invoke hcheck, Ending.map_eq_failed_iff.mpr hcall, hrest⟩
  | runRoutine r vs =>
      cases fuel with
      | zero => cases h
      | succ n =>
          have h := Ending.map_eq_failed_iff.mp h
          rw [runRoutine_succ] at h
          rcases failed_cases h with h | ⟨_, _, -, h⟩
          · obtain ⟨m₁, h, hrest⟩ := failed_inScope h
            exact .inr ⟨_, m₁, .body, Ending.map_eq_failed_iff.mpr h, hrest⟩
          · exact absurd h result_ne_failed
  | executeAll ss =>
      cases fuel with
      | zero => cases h
      | succ n =>
          cases ss with
          | nil => cases h
          | cons s ss =>
              rcases failed_cases (Ending.map_eq_failed_iff.mp h) with h | ⟨flow, m₁, hflow, h⟩
              · exact explained_of_execute .first h
              · cases flow with
                | normal =>
                    exact explained_of_part (.others hflow) (Ending.map_eq_failed_iff.mpr h)
                | returned v => cases h

/-- A run that fails comes to a moment that raises its fault, and goes back from there without doing
anything else. -/
theorem exists_raises {x : Moment} (h : x.ending = .failed fault m') :
    ∃ y m₁, Within x y ∧ y.ending = .failed fault m₁ ∧ y.Raises fault m₁ ∧
      m'.atRest = m₁.atRest := by
  induction hn : x.fuel using Nat.strongRecOn generalizing x m' with
  | ind n ih =>
      rcases explained_of_failed h with hraises | ⟨y, m₁, hpart, hy, hrest⟩
      · exact ⟨x, m', .refl, h, hraises, rfl⟩
      · obtain ⟨z, m₂, hwithin, hz, hraises, hrest'⟩ := ih y.fuel (hn ▸ hpart.fuel_lt) hy rfl
        exact ⟨z, m₂, .head hpart hwithin, hz, hraises, hrest.trans hrest'⟩

end Moment

end Lox
