import Lox.Proofs.Running.Resuming
import Lox.Proofs.Running.Tasks

namespace Lox

variable {α β : Type}

namespace Ending

def map (f : α → β) : Ending α → Ending β
  | .done value m => .done (f value) m
  | .failed fault m => .failed fault m
  | .unfinished => .unfinished

/-- The machine that is left. -/
def machine? : Ending α → Option Machine
  | .done _ m => some m
  | .failed _ m => some m
  | .unfinished => none

@[simp] theorem machine?_map (f : α → β) (ending : Ending α) :
    (ending.map f).machine? = ending.machine? := by
  cases ending <;> rfl

@[simp] theorem map_eq_done_iff {f : α → β} {ending : Ending α} {b : β} {m : Machine} :
    ending.map f = .done b m ↔ ∃ a, ending = .done a m ∧ f a = b := by
  cases ending <;> simp [map, and_comm]

@[simp] theorem map_eq_failed_iff {f : α → β} {ending : Ending α} {fault : Diagnostic}
    {m : Machine} : ending.map f = .failed fault m ↔ ending = .failed fault m := by
  cases ending <;> simp [map]

end Ending

theorem Run.Resumes.of_machine? {r : Run α} {m m' : Machine} (hr : r.Resumes)
    (h : (r m).machine? = some m') : m.Resumes m' := by
  have hm := hr m
  cases hending : r m with
  | done a m₁ | failed fault m₁ =>
      rw [hending] at h hm
      cases h
      exact hm
  | unfinished =>
      rw [hending] at h
      cases h

/-- The value with which a statement returns. -/
def Flow.values : Flow → List Value
  | .normal => []
  | .returned value => [value]

/-- How the task of a moment ends, with the values that it hands on. -/
def Moment.ending : Moment → Ending (List Value)
  | ⟨n, .evaluate e, m⟩ => (Lox.evaluate n e m).map fun v => [v]
  | ⟨n, .evaluateAll es, m⟩ => Lox.evaluateAll n es m
  | ⟨n, .callValue callee paren vs, m⟩ => (Lox.callValue n callee paren vs m).map fun v => [v]
  | ⟨n, .invoke callee vs, m⟩ => (Lox.invoke n callee vs m).map fun v => [v]
  | ⟨n, .runRoutine r vs, m⟩ => (Lox.runRoutine n r vs m).map fun v => [v]
  | ⟨n, .execute s, m⟩ => (Lox.execute n s m).map Flow.values
  | ⟨n, .executeAll ss, m⟩ => (Lox.executeAll n ss m).map Flow.values
  | ⟨_, .lookUp node name, m⟩ => (Run.lookUp node name m).map fun v => [v]
  | ⟨_, .assign node name v, m⟩ => (Run.assign node name v m).map fun _ => []
  | ⟨_, .bindMethod r receiver, m⟩ => (Run.bindMethod r receiver m).map fun f => [.function f]

/-- All that was stored is still there, and the run is back where it was. -/
structure Machine.Follows (m m' : Machine) : Prop extends m.Resumes m' where
  instances : m.instances.size ≤ m'.instances.size

namespace Machine.Follows

variable {m m' m'' : Machine}

theorem refl (m : Machine) : m.Follows m := ⟨.refl m, Nat.le_refl _⟩

theorem trans (h : m.Follows m') (h' : m'.Follows m'') : m.Follows m'' :=
  ⟨h.toResumes.trans h'.toResumes, Nat.le_trans h.instances h'.instances⟩

theorem of_resumes (h : m.Resumes m') (hinstances : m'.instances = m.instances) : m.Follows m' :=
  ⟨h, Nat.le_of_eq (hinstances ▸ rfl)⟩

end Machine.Follows

end Lox
