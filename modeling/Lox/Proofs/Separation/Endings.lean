import Lox.Proofs.Running.Outcomes

namespace Lox

variable {α β : Type} {m m' : Machine} {x y : Moment}

namespace Run

theorem Resumes.scopes {r : Run α} (hr : r.Resumes) (h : (r m).machine? = some m') :
    m.scopes.Extends m'.scopes :=
  (hr.of_machine? h).scopes

theorem Resumes.of_done {r : Run α} {a : α} (hr : r.Resumes) (h : r m = .done a m') :
    m.Resumes m' :=
  hr.of_machine? (by rw [h]; rfl)

theorem exists_of_bind {r : Run α} {k : α → Run β} (hk : ∀ a, (k a).Resumes)
    (h : ((r >>= k) m).machine? = some m') :
    ∃ m₁, (r m).machine? = some m₁ ∧ m₁.scopes.Extends m'.scopes := by
  rw [bind_apply] at h
  cases hr : r m with
  | done a m₁ =>
      rw [hr] at h
      exact ⟨m₁, rfl, (hk a).scopes h⟩
  | failed fault m₁ =>
      rw [hr] at h
      cases h
      exact ⟨_, rfl, .refl _⟩
  | unfinished =>
      rw [hr] at h
      cases h

theorem bind_of_done {r : Run α} {k : α → Run β} {a : α} (h : r m = .done a m') :
    (r >>= k) m = k a m' := by
  rw [bind_apply, h]

theorem exists_of_inScope {r : Run α} {s : ScopeId}
    (h : (inScope s r m).machine? = some m') :
    ∃ m₁, (r { m with current := s }).machine? = some m₁ ∧ m₁.scopes = m'.scopes := by
  unfold inScope at h
  dsimp only at h
  cases hr : r { m with current := s } with
  | done a m₁ | failed fault m₁ =>
      rw [hr] at h
      cases h
      exact ⟨m₁, rfl, rfl⟩
  | unfinished =>
      rw [hr] at h
      cases h

theorem exists_of_counted {r : Run α} (h : (counted r m).machine? = some m') :
    ∃ m₁, (r m.countCall).machine? = some m₁ ∧ m₁.scopes = m'.scopes := by
  unfold counted at h
  cases hr : r { m with depth := m.depth + 1 } with
  | done a m₁ | failed fault m₁ =>
      rw [hr] at h
      cases h
      exact ⟨m₁, hr ▸ rfl, rfl⟩
  | unfinished =>
      rw [hr] at h
      cases h

end Run

open Run

/-- The moment has ended and left this machine. -/
def Moment.Left (x : Moment) (m : Machine) : Prop := x.ending.machine? = some m

theorem Moment.Left.resumes (h : x.Left m) : x.machine.Resumes m := by
  have hall := allResume x.fuel
  obtain ⟨n, task, m₀⟩ := x
  cases task <;> simp only [Moment.Left, Moment.ending, Ending.machine?_map] at h
  case evaluate e => exact (hall.evaluate e).of_machine? h
  case evaluateAll es => exact (hall.evaluateAll es).of_machine? h
  case callValue callee paren vs => exact (hall.callValue callee paren vs).of_machine? h
  case invoke callee vs => exact (hall.invoke callee vs).of_machine? h
  case runRoutine r vs => exact (hall.runRoutine r vs).of_machine? h
  case execute s => exact (hall.execute s).of_machine? h
  case executeAll ss => exact (hall.executeAll ss).of_machine? h
  case lookUp node name => exact (lookUp_resumes node name).of_machine? h
  case assign node name v => exact (assign_resumes node name v).of_machine? h
  case bindMethod r receiver => exact (resumes_closed.bindMethod r receiver).of_machine? h

theorem Moment.Left.extends (h : x.Left m) : x.machine.scopes.Extends m.scopes :=
  h.resumes.scopes

section

variable {n : Nat} {m₀ : Machine}

theorem expression_part_ended {e : Expr NodeId} (hpart : Part ⟨n + 1, .evaluate e, m₀⟩ y)
    (h : (evaluate (n + 1) e m₀).machine? = some m) :
    ∃ m', y.Left m' ∧ m'.scopes.Extends m.scopes := by
  have hall := allResume n
  cases hpart <;> simp only [Moment.Left, Moment.ending, Ending.machine?_map]
  case grouping | var | this => exact ⟨m, h, .refl _⟩
  case operand => exact exists_of_bind (fun _ => resumes_closed.ofExcept _ _) h
  case left operator a b =>
    exact exists_of_bind (fun _ => (hall.evaluate b).bind fun _ => resumes_closed.ofExcept _ _) h
  case right ha =>
    rw [evaluate, bind_of_done ha] at h
    exact exists_of_bind (fun _ => resumes_closed.ofExcept _ _) h
  case deciding operator a b =>
    refine exists_of_bind (fun v => ?_) h
    split
    · exact pure_resumes v
    · exact hall.evaluate b
  case undecided hv ha =>
    rw [evaluate, bind_of_done ha, hv] at h
    exact ⟨m, h, .refl _⟩
  case assigned node name e =>
    exact exists_of_bind (fun v => (assign_resumes node name v).bind fun _ => pure_resumes v) h
  case assign v ha =>
    rw [evaluate, bind_of_done ha] at h
    exact exists_of_bind (fun _ => pure_resumes v) h
  case callee callee paren es =>
    exact exists_of_bind (fun v => (hall.evaluateAll es).bind fun vs => hall.callValue v paren vs) h
  case arguments callee paren es v ha =>
    rw [evaluate, bind_of_done ha] at h
    exact exists_of_bind (fun vs => hall.callValue v paren vs) h
  case call hs ha =>
    rw [evaluate, bind_of_done ha, bind_of_done hs] at h
    exact ⟨m, h, .refl _⟩
  case object name => exact exists_of_bind (fun v => resumes_closed.getProperty v name) h
  case method name inst c r hfield hmethod ha =>
    rw [evaluate, bind_of_done ha] at h
    simp only [getProperty, bind_apply, field?, hfield, hmethod] at h
    exact exists_of_bind (fun f => pure_resumes (Value.function f)) h
  case holder object e name =>
    refine exists_of_bind (fun v => ?_) h
    cases v with
    | instance_ inst c =>
        exact (hall.evaluate e).bind fun v =>
          (setField_resumes inst name.lexeme v).bind fun _ => pure_resumes v
    | _ => exact fail_resumes _
  case held name inst c ha =>
    rw [evaluate, bind_of_done ha] at h
    exact exists_of_bind (fun v => (setField_resumes inst name.lexeme v).bind fun _ =>
      pure_resumes v) h

theorem statement_part_ended {s : Stmt NodeId} (hpart : Part ⟨n + 1, .execute s, m₀⟩ y)
    (h : (execute (n + 1) s m₀).machine? = some m) :
    ∃ m', y.Left m' ∧ m'.scopes.Extends m.scopes := by
  have hall := allResume n
  cases hpart <;> simp only [Moment.Left, Moment.ending, Ending.machine?_map]
  case expression | answer => exact exists_of_bind (fun _ => pure_resumes _) h
  case print =>
    exact exists_of_bind (fun v => (resumes_closed.print v).bind fun _ => pure_resumes _) h
  case initial name e =>
    exact exists_of_bind (fun v => (defineHere_resumes name v).bind fun _ => pure_resumes _) h
  case block =>
    rw [execute_block] at h
    obtain ⟨m', hm', hscopes⟩ := exists_of_inScope h
    exact ⟨m', hm', hscopes ▸ .refl _⟩
  case condition e s other =>
    refine exists_of_bind (fun v => ?_) h
    split
    · exact hall.execute s
    · cases other with
      | none => exact pure_resumes _
      | some other => exact hall.execute other
  case consequent other _ hv ha =>
    cases other <;> rw [execute, bind_of_done ha, if_pos hv] at h <;> exact ⟨m, h, .refl _⟩
  case alternative hv ha =>
    rw [execute, bind_of_done ha, if_neg hv] at h
    exact ⟨m, h, .refl _⟩
  case loopCondition e s =>
    refine exists_of_bind (fun v => ?_) h
    split
    · refine (hall.execute s).bind fun flow => ?_
      cases flow with
      | normal => exact hall.execute (.loop e s)
      | returned v => exact pure_resumes _
    · exact pure_resumes _
  case loopBody e s v hv ha =>
    rw [execute, bind_of_done ha, if_pos hv] at h
    refine exists_of_bind (fun flow => ?_) h
    cases flow with
    | normal => exact hall.execute (.loop e s)
    | returned v => exact pure_resumes _
  case loopAgain hv hs ha =>
    rw [execute, bind_of_done ha, if_pos hv, bind_of_done hs] at h
    exact ⟨m, h, .refl _⟩

theorem call_part_ended {callee : Value} {vs : List Value}
    (hpart : Part ⟨n + 1, .invoke callee vs, m₀⟩ y)
    (h : (invoke (n + 1) callee vs m₀).machine? = some m) :
    ∃ m', y.Left m' ∧ m'.scopes.Extends m.scopes := by
  cases hpart <;> simp only [Moment.Left, Moment.ending, Ending.machine?_map]
  case function => exact ⟨m, h, .refl _⟩
  case receiver c r hr =>
    rw [invoke_class, hr] at h
    have hrest := ((allResume n).runRoutine { r with scope := m₀.scopes.size } vs).bind fun _ =>
      pure_resumes (Value.instance_ m₀.instances.size c)
    exact ⟨_, rfl, hrest.scopes h⟩
  case initializer c r hr =>
    rw [invoke_class, hr] at h
    exact exists_of_bind (fun _ => pure_resumes (Value.instance_ m₀.instances.size c)) h

end

theorem Part.ended (hpart : Part x y) (h : x.Left m) :
    ∃ m', y.Left m' ∧ m'.scopes.Extends m.scopes := by
  obtain ⟨fuel, task, m₀⟩ := x
  obtain ⟨n, rfl⟩ := Nat.exists_eq_succ_of_ne_zero (Nat.ne_zero_of_lt hpart.fuel_lt)
  have hall := allResume n
  cases task <;> simp only [Moment.Left, Moment.ending, Ending.machine?_map] at h
  case evaluate => exact expression_part_ended hpart h
  case execute => exact statement_part_ended hpart h
  case invoke => exact call_part_ended hpart h
  case evaluateAll es =>
    cases hpart <;> simp only [Moment.Left, Moment.ending, Ending.machine?_map]
    case firstOf e es =>
      exact exists_of_bind (fun _ => (hall.evaluateAll es).bind fun _ => pure_resumes _) h
    case othersOf ha =>
      rw [evaluateAll, bind_of_done ha] at h
      exact exists_of_bind (fun _ => pure_resumes _) h
  case callValue callee paren vs =>
    cases hpart with
    | invoke hcheck =>
        rw [callValue, bind_of_done hcheck] at h
        obtain ⟨m', hm', hscopes⟩ := exists_of_counted h
        exact ⟨m', by simpa only [Moment.Left, Moment.ending, Ending.machine?_map],
          hscopes ▸ .refl _⟩
  case runRoutine r vs =>
    cases hpart with
    | body =>
        rw [runRoutine_succ] at h
        obtain ⟨m₁, h, hextends⟩ := exists_of_bind (fun flow => result_resumes r flow) h
        obtain ⟨m', hm', hscopes⟩ := exists_of_inScope h
        exact ⟨m', by simpa only [Moment.Left, Moment.ending, Ending.machine?_map],
          hscopes ▸ hextends⟩
  case executeAll ss =>
    cases hpart <;> simp only [Moment.Left, Moment.ending, Ending.machine?_map]
    case first s ss =>
      refine exists_of_bind (fun flow => ?_) h
      cases flow with
      | normal => exact hall.executeAll ss
      | returned v => exact pure_resumes _
    case others ha =>
      rw [executeAll, bind_of_done ha] at h
      exact ⟨m, h, .refl _⟩
  all_goals cases hpart

end Lox
