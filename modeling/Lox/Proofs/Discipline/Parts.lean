import Lox.Proofs.Discipline.Discipline

namespace Lox.Discipline

variable {D : Discipline} {m m' : Machine} {n : Nat} {x y : Moment} {task : Task} {v : Value}
  {vs : List Value}

section

variable {α β : Type} {P : α → Heap → Prop}

theorem endsAt_map_iff {f : α → β} {Q : β → Heap → Prop} {ending : Ending α} :
    D.EndsAt m Q (ending.map f) ↔ D.EndsAt m (fun a h => Q (f a) h) ending := by
  cases ending <;> rfl

theorem EndsAt.of_done {ending : Ending α} {a : α} (h : D.EndsAt m P ending)
    (hdone : ending = .done a m') : m.Follows m' ∧ D.Keeps m' ∧ P a m'.heap := by
  subst hdone
  exact h

theorem endsAt_value_iff {f : α → Value} {ending : Ending α} :
    D.EndsAt m (fun vs h => ∀ v ∈ vs, D.Allows h v) (ending.map fun a => [f a]) ↔
      D.EndsAt m (fun a h => D.Allows h (f a)) ending := by
  simp only [endsAt_map_iff, List.forall_mem_singleton]

end

theorem ends_evaluate_iff {e : Expr NodeId} :
    D.Ends ⟨n, .evaluate e, m⟩ ↔
      D.EndsAt m (fun v h => D.Allows h v) (Lox.evaluate n e m) := endsAt_value_iff

theorem ends_evaluateAll_iff {es : List (Expr NodeId)} :
    D.Ends ⟨n, .evaluateAll es, m⟩ ↔
      D.EndsAt m (fun vs h => ∀ v ∈ vs, D.Allows h v) (Lox.evaluateAll n es m) := Iff.rfl

theorem ends_callValue_iff {callee : Value} {paren : Token} :
    D.Ends ⟨n, .callValue callee paren vs, m⟩ ↔
      D.EndsAt m (fun v h => D.Allows h v) (Lox.callValue n callee paren vs m) := endsAt_value_iff

theorem ends_invoke_iff {callee : Value} :
    D.Ends ⟨n, .invoke callee vs, m⟩ ↔
      D.EndsAt m (fun v h => D.Allows h v) (Lox.invoke n callee vs m) := endsAt_value_iff

theorem ends_runRoutine_iff {r : Routine} :
    D.Ends ⟨n, .runRoutine r vs, m⟩ ↔
      D.EndsAt m (fun v h => D.Allows h v) (Lox.runRoutine n r vs m) := endsAt_value_iff

theorem ends_lookUp_iff {node : NodeId} {name : Token} :
    D.Ends ⟨n, .lookUp node name, m⟩ ↔
      D.EndsAt m (fun v h => D.Allows h v) (Run.lookUp node name m) := endsAt_value_iff

theorem ends_bindMethod_iff {r : Routine} {receiver : Value} :
    D.Ends ⟨n, .bindMethod r receiver, m⟩ ↔
      D.EndsAt m (fun f h => D.Allows h (.function f)) (Run.bindMethod r receiver m) := by
  rw [Ends, Moment.ending]
  exact endsAt_value_iff

theorem ends_assign_iff {node : NodeId} {name : Token} :
    D.Ends ⟨n, .assign node name v, m⟩ ↔
      D.EndsAt m (fun _ _ => True) (Run.assign node name v m) := by
  simp [Ends, Moment.ending, endsAt_map_iff]

theorem ends_execute_iff {s : Stmt NodeId} :
    D.Ends ⟨n, .execute s, m⟩ ↔
      D.EndsAt m (fun flow h => ∀ v ∈ flow.values, D.Allows h v) (Lox.execute n s m) :=
  endsAt_map_iff

theorem ends_executeAll_iff {ss : List (Stmt NodeId)} :
    D.Ends ⟨n, .executeAll ss, m⟩ ↔
      D.EndsAt m (fun flow h => ∀ v ∈ flow.values, D.Allows h v) (Lox.executeAll n ss m) :=
  endsAt_map_iff

/-- All parts of a moment that are admitted end as the discipline says. -/
def PartsEnd (D : Discipline) (x : Moment) : Prop := ∀ y, Part x y → D.Admits y → D.Ends y

theorem Admits.moment (hx : D.Admits x) : D.moment x := hx.foresees x .refl

theorem Admits.part (hx : D.Admits x) (hpart : Part x y) (hkeeps : D.Keeps y.machine)
    (htask : D.AllowsTask y.machine.heap y.task) : D.Admits y :=
  ⟨hkeeps, fun z hz => hx.foresees z (.head hpart hz), htask⟩

namespace PartsEnd

theorem evaluated {e : Expr NodeId} (ih : D.PartsEnd x) (hpart : Part x ⟨n, .evaluate e, m⟩)
    (hy : D.Admits ⟨n, .evaluate e, m⟩) (h : Lox.evaluate n e m = .done v m') :
    m.Follows m' ∧ D.Keeps m' ∧ D.Allows m'.heap v :=
  (ends_evaluate_iff.mp (ih _ hpart hy)).of_done h

theorem evaluatedAll {es : List (Expr NodeId)} (ih : D.PartsEnd x)
    (hpart : Part x ⟨n, .evaluateAll es, m⟩) (hy : D.Admits ⟨n, .evaluateAll es, m⟩)
    (h : Lox.evaluateAll n es m = .done vs m') :
    m.Follows m' ∧ D.Keeps m' ∧ ∀ v ∈ vs, D.Allows m'.heap v :=
  (ends_evaluateAll_iff.mp (ih _ hpart hy)).of_done h

theorem executed {s : Stmt NodeId} {flow : Flow} (ih : D.PartsEnd x)
    (hpart : Part x ⟨n, .execute s, m⟩) (hy : D.Admits ⟨n, .execute s, m⟩)
    (h : Lox.execute n s m = .done flow m') :
    m.Follows m' ∧ D.Keeps m' ∧ ∀ v ∈ flow.values, D.Allows m'.heap v :=
  (ends_execute_iff.mp (ih _ hpart hy)).of_done h

end PartsEnd

theorem admits_of_expression_part {e : Expr NodeId} (hx : D.Admits ⟨n + 1, .evaluate e, m⟩)
    (ih : D.PartsEnd ⟨n + 1, .evaluate e, m⟩) (hpart : Part ⟨n + 1, .evaluate e, m⟩ y) :
    D.Admits y := by
  have hkeeps := hx.keeps
  have hmarked : D.Marked e.marks := hx.task
  cases id hpart with
  | grouping | operand | left | deciding | assigned | callee | object | holder =>
      exact hx.part hpart hkeeps (hmarked.mono (by simp [Expr.marks]))
  | var | this => exact hx.part hpart hkeeps trivial
  | right h =>
      have hleft := hx.part .left hkeeps (hmarked.mono (by simp [Expr.marks]))
      obtain ⟨-, hkeeps', -⟩ := ih.evaluated .left hleft h
      exact hx.part hpart hkeeps' (hmarked.mono (by simp [Expr.marks]))
  | undecided h =>
      have hleft := hx.part .deciding hkeeps (hmarked.mono (by simp [Expr.marks]))
      obtain ⟨-, hkeeps', -⟩ := ih.evaluated .deciding hleft h
      exact hx.part hpart hkeeps' (hmarked.mono (by simp [Expr.marks]))
  | assign h =>
      have hvalue := hx.part .assigned hkeeps (hmarked.mono (by simp [Expr.marks]))
      obtain ⟨-, hkeeps', hv⟩ := ih.evaluated .assigned hvalue h
      exact hx.part hpart hkeeps' ⟨hmarked _ (by simp [Expr.marks]), hv⟩
  | arguments h =>
      have hcallee := hx.part .callee hkeeps (hmarked.mono (by simp [Expr.marks]))
      obtain ⟨-, hkeeps', -⟩ := ih.evaluated .callee hcallee h
      exact hx.part hpart hkeeps' (hmarked.mono (by simp [Expr.marks]))
  | call h hs =>
      have hcallee := hx.part .callee hkeeps (hmarked.mono (by simp [Expr.marks]))
      obtain ⟨-, hkeeps', hv⟩ := ih.evaluated .callee hcallee h
      have harguments := hx.part (.arguments h) hkeeps' (hmarked.mono (by simp [Expr.marks]))
      obtain ⟨hfollows, hkeeps'', hvs⟩ := ih.evaluatedAll (.arguments h) harguments hs
      exact hx.part hpart hkeeps'' ⟨hv.extends hfollows.heap, hvs⟩
  | @method _ _ _ _ name _ c _ h _ hmethod =>
      have hobject := hx.part .object hkeeps (hmarked.mono (by simp [Expr.marks]))
      obtain ⟨-, hkeeps', hv⟩ := ih.evaluated .object hobject h
      exact hx.part hpart hkeeps' ⟨⟨name.lexeme, hv.2.2 _ _ hmethod⟩, hv⟩
  | held h =>
      have hobject := hx.part .holder hkeeps (hmarked.mono (by simp [Expr.marks]))
      obtain ⟨-, hkeeps', -⟩ := ih.evaluated .holder hobject h
      exact hx.part hpart hkeeps' (hmarked.mono (by simp [Expr.marks]))

theorem Keeps.allows_instance (hm : D.Keeps m) {c : Class} (hc : D.AllowsClass c) :
    D.Allows m.addInstance.heap (.instance_ m.instances.size c) :=
  ⟨D.newObject hm.stores.heap, D.newInstance m.heap, hc⟩

theorem AllowsMethod.bind {name : String} {r : Routine} (hr : D.AllowsMethod name r)
    (hm : D.Keeps m) (receiver : Value) :
    D.AllowsFunction (m.bind r receiver).heap { r with scope := m.scopes.size } :=
  ⟨⟨D.newScope hm.stores.heap, hr.marked⟩, D.bound m.heap receiver hr.method⟩

theorem admits_of_call_part {callee : Value} (hx : D.Admits ⟨n + 1, .invoke callee vs, m⟩)
    (hpart : Part ⟨n + 1, .invoke callee vs, m⟩ y) : D.Admits y := by
  have hkeeps := hx.keeps
  obtain ⟨hcallee, hvs⟩ := id hx.task
  cases id hpart with
  | function => exact hx.part hpart hkeeps ⟨hcallee, hvs⟩
  | receiver h =>
      exact hx.part hpart hkeeps.addInstance ⟨⟨_, hcallee _ _ h⟩, hkeeps.allows_instance hcallee⟩
  | @initializer _ _ c r _ h =>
      have hreceiver := hkeeps.allows_instance hcallee
      have hmoment := hx.foresees _ (.single (.receiver h))
      have hbind := hkeeps.addInstance.bind hmoment (hcallee _ _ h).toAllowsRoutine hreceiver
      refine hx.part hpart hbind ⟨(hcallee _ _ h).bind hkeeps.addInstance _, fun v hv => ?_⟩
      refine (hvs v hv).extends ?_
      exact m.heap.extends_addInstance.trans (m.addInstance.heap.extends_bind r _)

theorem admits_of_statement_part {s : Stmt NodeId} (hx : D.Admits ⟨n + 1, .execute s, m⟩)
    (ih : D.PartsEnd ⟨n + 1, .execute s, m⟩) (hpart : Part ⟨n + 1, .execute s, m⟩ y) :
    D.Admits y := by
  have hkeeps := hx.keeps
  have hmarked : D.Marked s.marks := hx.task
  cases id hpart with
  | expression | print | answer | initial | loopCondition =>
      exact hx.part hpart hkeeps (hmarked.mono (by simp [Stmt.marks, Expr.marksOption]))
  | block => exact hx.part hpart (hkeeps.enterBlock hx.moment) (hmarked.mono (by simp [Stmt.marks]))
  | @condition _ _ _ _ other =>
      exact hx.part hpart hkeeps (hmarked.mono (by cases other <;> simp [Stmt.marks]))
  | @consequent _ _ _ _ _ other _ h =>
      have hcondition := hx.part .condition hkeeps
        (hmarked.mono (by cases other <;> simp [Stmt.marks]))
      obtain ⟨-, hkeeps', -⟩ := ih.evaluated .condition hcondition h
      exact hx.part hpart hkeeps' (hmarked.mono (by cases other <;> simp [Stmt.marks]))
  | alternative h =>
      have hcondition := hx.part .condition hkeeps (hmarked.mono (by simp [Stmt.marks]))
      obtain ⟨-, hkeeps', -⟩ := ih.evaluated .condition hcondition h
      exact hx.part hpart hkeeps' (hmarked.mono (by simp [Stmt.marks]))
  | loopBody h =>
      have hcondition := hx.part .loopCondition hkeeps (hmarked.mono (by simp [Stmt.marks]))
      obtain ⟨-, hkeeps', -⟩ := ih.evaluated .loopCondition hcondition h
      exact hx.part hpart hkeeps' (hmarked.mono (by simp [Stmt.marks]))
  | loopAgain h hv hs =>
      have hcondition := hx.part .loopCondition hkeeps (hmarked.mono (by simp [Stmt.marks]))
      obtain ⟨-, hkeeps', -⟩ := ih.evaluated .loopCondition hcondition h
      have hbody := hx.part (.loopBody h hv) hkeeps' (hmarked.mono (by simp [Stmt.marks]))
      obtain ⟨-, hkeeps'', -⟩ := ih.executed (.loopBody h hv) hbody hs
      exact hx.part hpart hkeeps'' hmarked

/-- Where a moment is admitted and its parts end as the discipline says, each part is admitted. -/
theorem admits_of_part (hx : D.Admits x) (ih : D.PartsEnd x) (hpart : Part x y) : D.Admits y := by
  obtain ⟨fuel, task, m⟩ := x
  have hkeeps := hx.keeps
  have htask := hx.task
  cases task with
  | evaluate e =>
      obtain ⟨n, rfl⟩ : ∃ n, fuel = n + 1 := by cases hpart <;> exact ⟨_, rfl⟩
      exact admits_of_expression_part hx ih hpart
  | execute s =>
      obtain ⟨n, rfl⟩ : ∃ n, fuel = n + 1 := by cases hpart <;> exact ⟨_, rfl⟩
      exact admits_of_statement_part hx ih hpart
  | invoke callee vs =>
      obtain ⟨n, rfl⟩ : ∃ n, fuel = n + 1 := by cases hpart <;> exact ⟨_, rfl⟩
      exact admits_of_call_part hx hpart
  | evaluateAll es =>
      have hmarked : D.Marked (Expr.marksAll es) := htask
      cases id hpart with
      | firstOf => exact hx.part hpart hkeeps (hmarked.mono (by simp [Expr.marksAll]))
      | othersOf h =>
          have hfirst := hx.part .firstOf hkeeps (hmarked.mono (by simp [Expr.marksAll]))
          obtain ⟨-, hkeeps', -⟩ := ih.evaluated .firstOf hfirst h
          exact hx.part hpart hkeeps' (hmarked.mono (by simp [Expr.marksAll]))
  | callValue callee paren vs =>
      cases id hpart with
      | invoke h => exact hx.part hpart ⟨hkeeps.current, hkeeps.stores⟩ htask
  | runRoutine r vs =>
      cases id hpart with
      | body =>
          obtain ⟨hr, hvs⟩ := htask
          exact hx.part hpart (hkeeps.enterCall hx.moment hr.toAllowsRoutine hvs) hr.marked_body
  | executeAll ss =>
      have hmarked : D.Marked (Stmt.marksAll ss) := htask
      cases id hpart with
      | first => exact hx.part hpart hkeeps (hmarked.mono (by simp [Stmt.marksAll]))
      | others h =>
          have hfirst := hx.part .first hkeeps (hmarked.mono (by simp [Stmt.marksAll]))
          obtain ⟨-, hkeeps', -⟩ := ih.executed .first hfirst h
          exact hx.part hpart hkeeps' (hmarked.mono (by simp [Stmt.marksAll]))
  | lookUp node name | assign node name v | bindMethod r receiver => cases hpart

end Lox.Discipline
