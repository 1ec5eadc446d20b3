import Lox.Evaluation

namespace Lox

namespace Run

variable {α β : Type}

/-- The second run ends as the first one does, unless that one is cut off. -/
def Below (r r' : Run α) : Prop := ∀ m, r m ≠ .unfinished → r' m = r m

theorem Below.refl (r : Run α) : r.Below r := fun _ _ => rfl

theorem Below.trans {r r' r'' : Run α} (h : r.Below r') (h' : r'.Below r'') : r.Below r'' := by
  intro m hm
  have heq := h m hm
  rw [h' m (heq ▸ hm), heq]

theorem below_unfinished (r : Run α) : (unfinished : Run α).Below r := fun _ h => absurd rfl h

theorem Below.bind {r r' : Run α} {k k' : α → Run β} (h : r.Below r')
    (hk : ∀ a, (k a).Below (k' a)) : (r >>= k).Below (r' >>= k') := by
  intro m hm
  rw [bind_apply] at hm
  rw [bind_apply, bind_apply]
  cases hr : r m with
  | done a m' =>
      rw [h m (by simp [hr]), hr]
      exact hk a m' (by simpa [hr] using hm)
  | failed fault m' => rw [h m (by simp [hr]), hr]
  | unfinished => simp [hr] at hm

theorem Below.inScope {r r' : Run α} (h : r.Below r') (s : ScopeId) :
    (inScope s r).Below (inScope s r') := by
  intro m hm
  have hinner : r { m with current := s } ≠ .unfinished := by
    intro hcut
    simp [Run.inScope, hcut] at hm
  unfold Run.inScope
  rw [h _ hinner]

theorem Below.counted {r r' : Run α} (h : r.Below r') : (counted r).Below (counted r') := by
  intro m hm
  have hinner : r { m with depth := m.depth + 1 } ≠ .unfinished := by
    intro hcut
    simp [Run.counted, hcut] at hm
  unfold Run.counted
  rw [h _ hinner]

theorem exists_of_bind_done {m m' : Machine} {r : Run α} {k : α → Run β} {b : β}
    (h : (r >>= k) m = .done b m') : ∃ a m₁, r m = .done a m₁ ∧ k a m₁ = .done b m' := by
  rw [bind_apply] at h
  cases hr : r m with
  | done a m₁ =>
      rw [hr] at h
      exact ⟨a, m₁, rfl, h⟩
  | failed fault m₁ =>
      rw [hr] at h
      cases h
  | unfinished =>
      rw [hr] at h
      cases h

end Run

open Run

/-- Each run is below that with one more unit of fuel. -/
structure Lengthens (n : Nat) : Prop where
  evaluate : ∀ e, (evaluate n e).Below (Lox.evaluate (n + 1) e)
  evaluateAll : ∀ es, (evaluateAll n es).Below (Lox.evaluateAll (n + 1) es)
  callValue : ∀ v paren vs, (callValue n v paren vs).Below (Lox.callValue (n + 1) v paren vs)
  invoke : ∀ v vs, (invoke n v vs).Below (Lox.invoke (n + 1) v vs)
  runRoutine : ∀ r vs, (runRoutine n r vs).Below (Lox.runRoutine (n + 1) r vs)
  execute : ∀ s, (execute n s).Below (Lox.execute (n + 1) s)
  executeAll : ∀ ss, (executeAll n ss).Below (Lox.executeAll (n + 1) ss)

variable {n : Nat}

theorem evaluate_below (ih : Lengthens n) (e : Expr NodeId) :
    (evaluate (n + 1) e).Below (evaluate (n + 2) e) := by
  cases e with
  | literal | var | this => exact .refl _
  | grouping inner => exact ih.evaluate inner
  | unary operator operand => exact (ih.evaluate operand).bind fun _ => .refl _
  | binary left operator right =>
      exact (ih.evaluate left).bind fun _ => (ih.evaluate right).bind fun _ => .refl _
  | logical left operator right =>
      refine (ih.evaluate left).bind fun value => ?_
      split
      · exact .refl _
      · exact ih.evaluate right
  | assign node name value => exact (ih.evaluate value).bind fun _ => .refl _
  | call callee paren arguments =>
      exact (ih.evaluate callee).bind fun v => (ih.evaluateAll arguments).bind fun vs =>
        ih.callValue v paren vs
  | get object name => exact (ih.evaluate object).bind fun _ => .refl _
  | set object name value =>
      refine (ih.evaluate object).bind fun object => ?_
      cases object with
      | instance_ inst c => exact (ih.evaluate value).bind fun _ => .refl _
      | _ => exact .refl _

theorem evaluateAll_below (ih : Lengthens n) (es : List (Expr NodeId)) :
    (evaluateAll (n + 1) es).Below (evaluateAll (n + 2) es) := by
  cases es with
  | nil => exact .refl _
  | cons e es => exact (ih.evaluate e).bind fun _ => (ih.evaluateAll es).bind fun _ => .refl _

theorem callValue_below (ih : Lengthens n) (v : Value) (paren : Token) (vs : List Value) :
    (callValue (n + 1) v paren vs).Below (callValue (n + 2) v paren vs) :=
  (Below.refl (checkCall v vs.length paren)).bind fun _ => (ih.invoke v vs).counted

theorem invoke_below (ih : Lengthens n) (v : Value) (vs : List Value) :
    (invoke (n + 1) v vs).Below (invoke (n + 2) v vs) := by
  cases v with
  | function f => exact ih.runRoutine f.routine vs
  | class_ c =>
      refine (Below.refl newInstance).bind fun inst => ?_
      split
      · exact .refl _
      · rename_i routine _
        exact (Below.refl (bindMethod routine _)).bind fun closure =>
          (ih.runRoutine closure.routine vs).bind fun _ => .refl _
  | nil | boolean | number | string | native | instance_ => exact .refl _

theorem runRoutine_below (ih : Lengthens n) (r : Routine) (vs : List Value) :
    (runRoutine (n + 1) r vs).Below (runRoutine (n + 2) r vs) :=
  (Below.refl (newScope r.scope)).bind fun scope =>
    (Below.refl (defineAll scope r.declaration.params vs)).bind fun _ =>
      ((ih.executeAll r.declaration.body).inScope scope).bind fun _ => .refl _

theorem execute_below (ih : Lengthens n) (s : Stmt NodeId) :
    (execute (n + 1) s).Below (execute (n + 2) s) := by
  cases s with
  | expression e => exact (ih.evaluate e).bind fun _ => .refl _
  | print e => exact (ih.evaluate e).bind fun _ => .refl _
  | var name initial =>
      cases initial with
      | none => exact .refl _
      | some initial => exact (ih.evaluate initial).bind fun _ => .refl _
  | block body =>
      exact (Below.refl newInnerScope).bind fun scope => (ih.executeAll body).inScope scope
  | branch condition consequent alternative =>
      refine (ih.evaluate condition).bind fun value => ?_
      split
      · exact ih.execute consequent
      · cases alternative with
        | none => exact .refl _
        | some alternative => exact ih.execute alternative
  | loop condition body =>
      refine (ih.evaluate condition).bind fun value => ?_
      split
      · refine (ih.execute body).bind fun flow => ?_
        cases flow with
        | normal => exact ih.execute (.loop condition body)
        | returned => exact .refl _
      · exact .refl _
  | ret keyword value =>
      cases value with
      | none => exact .refl _
      | some value => exact (ih.evaluate value).bind fun _ => .refl _
  | function | class_ => exact .refl _

theorem executeAll_below (ih : Lengthens n) (ss : List (Stmt NodeId)) :
    (executeAll (n + 1) ss).Below (executeAll (n + 2) ss) := by
  cases ss with
  | nil => exact .refl _
  | cons s ss =>
      refine (ih.execute s).bind fun flow => ?_
      cases flow with
      | normal => exact ih.executeAll ss
      | returned => exact .refl _

theorem lengthens (n : Nat) : Lengthens n := by
  induction n with
  | zero =>
      constructor
      all_goals
        intros
        exact below_unfinished _
  | succ n ih =>
      exact ⟨evaluate_below ih, evaluateAll_below ih, callValue_below ih, invoke_below ih,
        runRoutine_below ih, execute_below ih, executeAll_below ih⟩

theorem evaluate_below_of_le {n n' : Nat} (h : n ≤ n') (e : Expr NodeId) :
    (evaluate n e).Below (evaluate n' e) := by
  induction h with
  | refl => exact .refl _
  | step _ ih => exact ih.trans ((lengthens _).evaluate e)

theorem execute_below_of_le {n n' : Nat} (h : n ≤ n') (s : Stmt NodeId) :
    (execute n s).Below (execute n' s) := by
  induction h with
  | refl => exact .refl _
  | step _ ih => exact ih.trans ((lengthens _).execute s)

theorem exists_of_executeAll_cons {n : Nat} {s : Stmt NodeId} {ss : List (Stmt NodeId)}
    {m m' : Machine} (h : executeAll n (s :: ss) m = .done .normal m') :
    ∃ k m₁, n = k + 1 ∧ execute k s m = .done .normal m₁ ∧
      executeAll k ss m₁ = .done .normal m' := by
  cases n with
  | zero => cases h
  | succ k =>
      obtain ⟨flow, m₁, hs, h⟩ := Run.exists_of_bind_done h
      cases flow with
      | normal => exact ⟨k, m₁, rfl, hs, h⟩
      | returned v => cases h

/-- Statements that are done go on with those after them, which have the fuel that is left. -/
theorem executeAll_append {n : Nat} {before : List (Stmt NodeId)} {m m' : Machine}
    (h : executeAll n before m = .done .normal m') (after : List (Stmt NodeId)) {n' : Nat}
    (hle : n ≤ n' + before.length) :
    executeAll (n' + before.length) (before ++ after) m = executeAll n' after m' := by
  induction before generalizing n m with
  | nil =>
      cases n with
      | zero => cases h
      | succ n =>
          cases h
          rfl
  | cons s before ih =>
      obtain ⟨k, m₁, rfl, hs, h⟩ := exists_of_executeAll_cons h
      have hle : k ≤ n' + before.length := Nat.le_of_succ_le_succ hle
      -- the statement is done with the larger fuel as well
      have hmore := execute_below_of_le hle s m (by simp [hs])
      rw [List.length_cons, ← Nat.add_assoc, List.cons_append, executeAll, bind_apply, hmore, hs]
      exact ih h hle

theorem interpret_append {n : Nat} {before : List (Stmt NodeId)} {m m' : Machine}
    (h : executeAll n before m = .done .normal m') (after : List (Stmt NodeId)) {n' : Nat}
    (hle : n ≤ n' + before.length) :
    Machine.interpret (n' + before.length) (before ++ after) m = Machine.interpret n' after m' := by
  unfold Machine.interpret
  rw [executeAll_append h after hle]

end Lox
