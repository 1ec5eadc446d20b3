import Lox.Proofs.Running.Faults

namespace Lox

variable {m m' : Machine} {name : Token} {x : Moment}

/-- The task fails with this fault. -/
def Moment.Fails (fault : Diagnostic) (x : Moment) : Prop := ∃ m', x.ending = .failed fault m'

/-- The moment looks the name up, or assigns to it. -/
def Moment.Names (x : Moment) (node : NodeId) (name : Token) : Prop :=
  x.task = .lookUp node name ∨ ∃ v, x.task = .assign node name v

theorem Moment.Raises.exists_names (h : x.Raises (.undefined name) m') :
    ∃ node, x.Names node name := by
  cases h with
  | @lookUp _ _ node _ h =>
      refine ⟨node, .inl ?_⟩
      unfold Run.lookUp at h
      dsimp only at h
      split at h <;> cases h
      rfl
  | @assign _ _ node _ v h =>
      refine ⟨node, .inr ⟨v, ?_⟩⟩
      unfold Run.assign at h
      dsimp only at h
      split at h <;> cases h
      rfl
  | unary _ h =>
      obtain ⟨f, hf, hfault⟩ := Run.failed_ofExcept h
      cases hfault
      exact absurd (Operator.isOperational_of_unary hf) (by simp [RuntimeFault.isOperational])
  | binary _ _ h =>
      obtain ⟨f, hf, hfault⟩ := Run.failed_ofExcept h
      cases hfault
      exact absurd (Operator.isOperational_of_binary hf) (by simp [RuntimeFault.isOperational])
  | property _ h => obtain ⟨⟨⟩⟩ | ⟨⟨⟩⟩ := Run.failed_getProperty h
  | holder _ h => cases h
  | check h => obtain ⟨⟨⟩⟩ | ⟨_, ⟨⟩⟩ | ⟨⟨⟩⟩ := Run.failed_checkCall h
  | print _ h => cases Run.failed_writeAll h

/-- A run that finds a name undefined comes to a moment that names it. -/
theorem exists_within_of_fails (h : x.Fails (.undefined name)) :
    ∃ y node, Within x y ∧ y.Names node name ∧ y.Fails (.undefined name) := by
  obtain ⟨m', h⟩ := h
  obtain ⟨y, m₁, hwithin, hy, hraises, -⟩ := Moment.exists_raises h
  obtain ⟨node, hnames⟩ := hraises.exists_names
  exact ⟨y, node, hwithin, hnames, m₁, hy⟩

end Lox
