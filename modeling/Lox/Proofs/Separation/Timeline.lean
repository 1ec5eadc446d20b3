import Lox.Proofs.Separation.Endings

namespace Lox

open Run

variable {m : Machine} {x y z : Moment}

/-- The first moment ended before the second one began. -/
def Moment.Precedes (x y : Moment) : Prop := ∃ m, x.Left m ∧ m.scopes.Extends y.machine.scopes

section

variable {n k : Nat} {task : Task} {m₀ m₁ : Machine}

theorem evaluated_precedes {e : Expr NodeId} {v : Value} (h : evaluate n e m₀ = .done v m)
    (hm : m.scopes.Extends m₁.scopes) : Moment.Precedes ⟨n, .evaluate e, m₀⟩ ⟨k, task, m₁⟩ :=
  ⟨m, by simp only [Moment.Left, Moment.ending, h]; rfl, hm⟩

theorem evaluatedAll_precedes {es : List (Expr NodeId)} {vs : List Value}
    (h : evaluateAll n es m₀ = .done vs m) :
    Moment.Precedes ⟨n, .evaluateAll es, m₀⟩ ⟨k, task, m⟩ :=
  ⟨m, by simp only [Moment.Left, Moment.ending, h]; rfl, .refl _⟩

theorem executed_precedes {s : Stmt NodeId} {flow : Flow} (h : execute n s m₀ = .done flow m) :
    Moment.Precedes ⟨n, .execute s, m₀⟩ ⟨k, task, m⟩ :=
  ⟨m, by simp only [Moment.Left, Moment.ending, h]; rfl, .refl _⟩

theorem expression_parts_ordered {e : Expr NodeId} (hy : Part ⟨n + 1, .evaluate e, m₀⟩ y)
    (hz : Part ⟨n + 1, .evaluate e, m₀⟩ z) : y = z ∨ y.Precedes z ∨ z.Precedes y := by
  have hall := allResume n
  cases hy with
  | grouping | operand | var | this =>
      cases hz
      exact .inl rfl
  | left =>
      cases hz with
      | left => exact .inl rfl
      | right h => exact .inr (.inl (evaluated_precedes h (.refl _)))
  | right h =>
      cases hz with
      | left => exact .inr (.inr (evaluated_precedes h (.refl _)))
      | right h' =>
          cases h.symm.trans h'
          exact .inl rfl
  | deciding =>
      cases hz with
      | deciding => exact .inl rfl
      | undecided h hv => exact .inr (.inl (evaluated_precedes h (.refl _)))
  | undecided h hv =>
      cases hz with
      | deciding => exact .inr (.inr (evaluated_precedes h (.refl _)))
      | undecided h' hv' =>
          cases h.symm.trans h'
          exact .inl rfl
  | assigned =>
      cases hz with
      | assigned => exact .inl rfl
      | assign h => exact .inr (.inl (evaluated_precedes h (.refl _)))
  | assign h =>
      cases hz with
      | assigned => exact .inr (.inr (evaluated_precedes h (.refl _)))
      | assign h' =>
          cases h.symm.trans h'
          exact .inl rfl
  | callee =>
      cases hz with
      | callee => exact .inl rfl
      | arguments h => exact .inr (.inl (evaluated_precedes h (.refl _)))
      | call h hs =>
          exact .inr (.inl (evaluated_precedes h ((hall.evaluateAll _).scopes (by rw [hs]; rfl))))
  | arguments h =>
      cases hz with
      | callee => exact .inr (.inr (evaluated_precedes h (.refl _)))
      | arguments h' =>
          cases h.symm.trans h'
          exact .inl rfl
      | call h' hs =>
          cases h.symm.trans h'
          exact .inr (.inl (evaluatedAll_precedes hs))
  | call h hs =>
      cases hz with
      | callee =>
          exact .inr (.inr (evaluated_precedes h ((hall.evaluateAll _).scopes (by rw [hs]; rfl))))
      | arguments h' =>
          cases h.symm.trans h'
          exact .inr (.inr (evaluatedAll_precedes hs))
      | call h' hs' =>
          cases h.symm.trans h'
          cases hs.symm.trans hs'
          exact .inl rfl
  | object =>
      cases hz with
      | object => exact .inl rfl
      | method h hfield hr => exact .inr (.inl (evaluated_precedes h (.refl _)))
  | method h hfield hr =>
      cases hz with
      | object => exact .inr (.inr (evaluated_precedes h (.refl _)))
      | method h' hfield' hr' =>
          cases h.symm.trans h'
          cases hr.symm.trans hr'
          exact .inl rfl
  | holder =>
      cases hz with
      | holder => exact .inl rfl
      | held h => exact .inr (.inl (evaluated_precedes h (.refl _)))
  | held h =>
      cases hz with
      | holder => exact .inr (.inr (evaluated_precedes h (.refl _)))
      | held h' =>
          cases h.symm.trans h'
          exact .inl rfl

theorem statement_parts_ordered {s : Stmt NodeId} (hy : Part ⟨n + 1, .execute s, m₀⟩ y)
    (hz : Part ⟨n + 1, .execute s, m₀⟩ z) : y = z ∨ y.Precedes z ∨ z.Precedes y := by
  have hall := allResume n
  cases hy with
  | expression | print | initial | block | answer =>
      cases hz
      exact .inl rfl
  | condition =>
      cases hz with
      | condition => exact .inl rfl
      | consequent h hv | alternative h hv => exact .inr (.inl (evaluated_precedes h (.refl _)))
  | consequent h hv =>
      cases hz with
      | condition => exact .inr (.inr (evaluated_precedes h (.refl _)))
      | consequent h' hv' =>
          cases h.symm.trans h'
          exact .inl rfl
      | alternative h' hv' =>
          cases h.symm.trans h'
          exact absurd hv hv'
  | alternative h hv =>
      cases hz with
      | condition => exact .inr (.inr (evaluated_precedes h (.refl _)))
      | consequent h' hv' =>
          cases h.symm.trans h'
          exact absurd hv' hv
      | alternative h' hv' =>
          cases h.symm.trans h'
          exact .inl rfl
  | loopCondition =>
      cases hz with
      | loopCondition => exact .inl rfl
      | loopBody h hv => exact .inr (.inl (evaluated_precedes h (.refl _)))
      | loopAgain h hv hs =>
          exact .inr (.inl (evaluated_precedes h ((hall.execute _).scopes (by rw [hs]; rfl))))
  | loopBody h hv =>
      cases hz with
      | loopCondition => exact .inr (.inr (evaluated_precedes h (.refl _)))
      | loopBody h' hv' =>
          cases h.symm.trans h'
          exact .inl rfl
      | loopAgain h' hv' hs =>
          cases h.symm.trans h'
          exact .inr (.inl (executed_precedes hs))
  | loopAgain h hv hs =>
      cases hz with
      | loopCondition =>
          exact .inr (.inr (evaluated_precedes h ((hall.execute _).scopes (by rw [hs]; rfl))))
      | loopBody h' hv' =>
          cases h.symm.trans h'
          exact .inr (.inr (executed_precedes hs))
      | loopAgain h' hv' hs' =>
          cases h.symm.trans h'
          cases hs.symm.trans hs'
          exact .inl rfl

theorem call_parts_ordered {callee : Value} {vs : List Value}
    (hy : Part ⟨n + 1, .invoke callee vs, m₀⟩ y) (hz : Part ⟨n + 1, .invoke callee vs, m₀⟩ z) :
    y = z ∨ y.Precedes z ∨ z.Precedes y := by
  cases hy with
  | function =>
      cases hz
      exact .inl rfl
  | receiver h =>
      cases hz with
      | receiver h' =>
          cases h.symm.trans h'
          exact .inl rfl
      | initializer h' =>
          cases h.symm.trans h'
          exact .inr (.inl ⟨_, rfl, .refl _⟩)
  | initializer h =>
      cases hz with
      | receiver h' =>
          cases h.symm.trans h'
          exact .inr (.inr ⟨_, rfl, .refl _⟩)
      | initializer h' =>
          cases h.symm.trans h'
          exact .inl rfl

end

/-- Of two parts of a moment one ended before the other began. -/
theorem Part.ordered (hy : Part x y) (hz : Part x z) : y = z ∨ y.Precedes z ∨ z.Precedes y := by
  obtain ⟨fuel, task, m₀⟩ := x
  obtain ⟨n, rfl⟩ := Nat.exists_eq_succ_of_ne_zero (Nat.ne_zero_of_lt hy.fuel_lt)
  cases task with
  | evaluate e => exact expression_parts_ordered hy hz
  | execute s => exact statement_parts_ordered hy hz
  | invoke callee vs => exact call_parts_ordered hy hz
  | evaluateAll es =>
      cases hy with
      | firstOf =>
          cases hz with
          | firstOf => exact .inl rfl
          | othersOf h => exact .inr (.inl (evaluated_precedes h (.refl _)))
      | othersOf h =>
          cases hz with
          | firstOf => exact .inr (.inr (evaluated_precedes h (.refl _)))
          | othersOf h' =>
              cases h.symm.trans h'
              exact .inl rfl
  | executeAll ss =>
      cases hy with
      | first =>
          cases hz with
          | first => exact .inl rfl
          | others h => exact .inr (.inl (executed_precedes h))
      | others h =>
          cases hz with
          | first => exact .inr (.inr (executed_precedes h))
          | others h' =>
              cases h.symm.trans h'
              exact .inl rfl
  | callValue callee paren vs | runRoutine r vs =>
      cases hy
      cases hz
      exact .inl rfl
  | lookUp node name | assign node name v | bindMethod r receiver => cases hy

theorem Part.extends (h : Part x y) : x.machine.scopes.Extends y.machine.scopes := by
  obtain ⟨fuel, task, m₀⟩ := x
  obtain ⟨n, rfl⟩ := Nat.exists_eq_succ_of_ne_zero (Nat.ne_zero_of_lt h.fuel_lt)
  have hall := allResume n
  cases h with
  | right h | undecided h | assign h | arguments h | method h | held h | othersOf h
  | consequent h | alternative h | loopBody h => exact (hall.evaluate _).scopes (by rw [h]; rfl)
  | others h => exact (hall.execute _).scopes (by rw [h]; rfl)
  | call h hs =>
      have hcallee := (hall.evaluate _).scopes (by rw [h]; rfl)
      exact hcallee.trans ((hall.evaluateAll _).scopes (by rw [hs]; rfl))
  | loopAgain h hv hs =>
      have hcondition := (hall.evaluate _).scopes (by rw [h]; rfl)
      exact hcondition.trans ((hall.execute _).scopes (by rw [hs]; rfl))
  | @initializer _ _ c r _ _ => exact Setting.extends_bind m₀.addInstance r _
  | @body _ _ r vs => exact Setting.extends_enterCall m₀ r vs
  | block => exact .push _ _
  | _ => exact .refl _

theorem Within.extends (h : Within x y) : x.machine.scopes.Extends y.machine.scopes := by
  induction h with
  | refl => exact .refl _
  | tail _ hpart ih => exact ih.trans hpart.extends

theorem Within.ended (h : Within x y) (hx : x.Left m) :
    ∃ m', y.Left m' ∧ m'.scopes.Extends m.scopes := by
  induction h with
  | refl => exact ⟨m, hx, .refl _⟩
  | tail _ hpart ih =>
      obtain ⟨m₁, hleft, hextends⟩ := ih
      obtain ⟨m₂, hleft, hextends'⟩ := hpart.ended hleft
      exact ⟨m₂, hleft, hextends'.trans hextends⟩

/-- The moments that make a scope, by the task that they have. -/
inductive Moment.Maker : Moment → Prop
  | block (n : Nat) (ss : List (Stmt NodeId)) (m : Machine) : Maker ⟨n + 1, .execute (.block ss), m⟩
  | call (n : Nat) (r : Routine) (vs : List Value) (m : Machine) :
      Maker ⟨n + 1, .runRoutine r vs, m⟩
  | receiver (n : Nat) (r : Routine) (v : Value) (m : Machine) : Maker ⟨n, .bindMethod r v, m⟩

theorem Moment.maker_of_makes (hx : x.makes?.isSome) : x.Maker := by
  obtain ⟨fuel, task, m⟩ := x
  unfold Moment.makes? at hx
  dsimp only at hx
  split at hx
  · cases fuel with
    | zero => cases hx
    | succ n => exact .block n _ m
  · cases fuel with
    | zero => cases hx
    | succ n => exact .call n _ _ m
  · exact .receiver fuel _ _ m
  · cases hx

theorem Part.lt_size (hpart : Part x y) (hx : x.makes?.isSome) :
    x.machine.scopes.size < y.machine.scopes.size := by
  cases Moment.maker_of_makes hx with
  | block n ss m =>
      cases hpart
      simp [Machine.enterBlock]
  | call n r vs m =>
      cases hpart
      exact Nat.lt_of_lt_of_le (by simp) (Setting.extends_defineAll _ _ _ vs).size_le
  | receiver n r v m => cases hpart

theorem Moment.Left.lt_size (h : x.Left m) (hx : x.makes?.isSome) :
    x.machine.scopes.size < m.scopes.size := by
  have hbody : ∀ y, Part x y → x.machine.scopes.size < m.scopes.size := by
    intro y hpart
    obtain ⟨m', hleft, hextends⟩ := hpart.ended h
    have hle := Nat.le_trans hleft.extends.size_le hextends.size_le
    exact Nat.lt_of_lt_of_le (hpart.lt_size hx) hle
  cases Moment.maker_of_makes hx with
  | block n ss m₀ => exact hbody _ .block
  | call n r vs m₀ => exact hbody _ .body
  | receiver n r v m₀ =>
      cases h
      simp

/-- All scopes that were made before the end of a run are there at its end. -/
theorem Within.lt_size (h : Within x y) (hx : x.Left m) (hy : y.makes?.isSome) :
    y.machine.scopes.size < m.scopes.size := by
  obtain ⟨m', hleft, hextends⟩ := h.ended hx
  exact Nat.lt_of_lt_of_le (hleft.lt_size hy) hextends.size_le

/-- Two moments that come from parts of one moment, of which the first precedes the second, make
different scopes. -/
theorem Moment.Precedes.lt_size {y' z' : Moment} (h : y.Precedes z) (hy : Within y y')
    (hz : Within z z') (hmakes : y'.makes?.isSome) :
    y'.machine.scopes.size < z'.machine.scopes.size := by
  obtain ⟨m, hleft, hextends⟩ := h
  have hle := Nat.le_trans hextends.size_le hz.extends.size_le
  exact Nat.lt_of_lt_of_le (hy.lt_size hleft hmakes) hle

theorem Within.eq_of_makes (hy : Within x y) (hz : Within x z) (hmakes : y.makes?.isSome)
    (hmakes' : z.makes?.isSome) (hsize : y.machine.scopes.size = z.machine.scopes.size) :
    y = z := by
  induction hy using Relation.ReflTransGen.head_induction_on with
  | refl =>
      rcases hz.cases_head with rfl | ⟨z₁, hpart, hz⟩
      · rfl
      · have hlt := Nat.lt_of_lt_of_le (hpart.lt_size hmakes) (Within.extends hz).size_le
        exact absurd hsize (Nat.ne_of_lt hlt)
  | @head x y₁ hpart hy ih =>
      rcases hz.cases_head with rfl | ⟨z₁, hpart', hz⟩
      · have hlt := Nat.lt_of_lt_of_le (hpart.lt_size hmakes') (Within.extends hy).size_le
        exact absurd hsize (Nat.ne_of_gt hlt)
      -- both come from one part, or one of their parts ended before the other began
      · rcases hpart.ordered hpart' with rfl | hbefore | hafter
        · exact ih hz
        · exact absurd hsize (Nat.ne_of_lt (hbefore.lt_size hy hz hmakes))
        · exact absurd hsize (Nat.ne_of_gt (hafter.lt_size hz hy hmakes'))

end Lox
