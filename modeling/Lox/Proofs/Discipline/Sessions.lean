import Lox.Proofs.Discipline.Runs
import Lox.Proofs.Running.Resuming

namespace Lox

variable {D : Discipline} {s s' : Session} {step : Step}

theorem Machine.own?_new (clock : Nat → Float) {scope : ScopeId} {name : String} {v : Value}
    (h : (Machine.new clock).scopes.own? scope name = some v) : v = .native .clock := by
  rw [Machine.new, Scopes.own?_define] at h
  split at h
  · cases h
    rfl
  · rw [Scopes.own?_push, Scopes.own?_of_size_le (Nat.zero_le _)] at h
    cases h

theorem Machine.enclosing?_new (clock : Nat → Float) (scope : ScopeId) :
    (Machine.new clock).scopes.enclosing? scope = none := by
  rw [Machine.new, Scopes.enclosing?_define, Scopes.enclosing?_push]
  split
  · rfl
  · exact Scopes.enclosing?_of_size_le (Nat.zero_le _)

/-- A new machine keeps to a discipline if its heap is allowed. -/
theorem Discipline.keeps_new {clock : Nat → Float} (h : D.heap (Machine.new clock).heap) :
    D.Keeps (Machine.new clock) := by
  refine ⟨D.outermost, ?_, ?_, ?_, h⟩
  · intro scope outer _ houter
    rw [Machine.heap, Machine.enclosing?_new] at houter
    cases houter
  · intro scope name v _ hv
    cases Machine.own?_new clock hv
    trivial
  · intro i fields name v _ hfields
    cases hfields

/-- The marks of the text that a step begins with. -/
def Task.marks : Task → List Mark
  | .evaluate e => e.marks
  | .executeAll ss => Stmt.marksAll ss
  | _ => []

namespace Session

theorem machine_of_unit? {source : String} {program : List (Stmt NodeId)}
    (h : s.unit? source = some (program, s')) :
    ∃ hops, s'.machine = { s.machine with hops } := by
  obtain ⟨_, _, _, _, rfl⟩ := unit?_eq_some_iff.mp h
  exact ⟨_, rfl⟩

/-- A step whose run ends so leaves this. What is cut off stores nothing, and a run that ends may
still find that its output cannot be delivered. -/
def Leaves {α : Type} (before : Heap) (ending : Ending α) (result : Answer × Session) : Prop :=
  match ending with
  | .done _ m =>
      result.2.machine.heap = m.heap ∧
        ∀ fault, result.1 = .runtimeError fault → fault = .output .flushFailed
  | .failed fault m =>
      result.2.machine.heap = m.heap ∧
        ∀ fault', result.1 = .runtimeError fault' → fault' = fault ∨ fault' = .output .flushFailed
  | .unfinished => result.2.machine.heap = before ∧ result.1 = .unfinished

theorem leaves_map_iff {α β : Type} {before : Heap} {f : α → β} {ending : Ending α}
    {result : Answer × Session} :
    Leaves before (ending.map f) result ↔ Leaves before ending result := by
  cases ending <;> rfl

theorem leaves_interpret (s : Session) (fuel : Nat) (program : List (Stmt NodeId)) :
    Leaves s.machine.heap (Lox.executeAll fuel program s.machine)
      (s.conclude (fun _ => .completed) (Machine.interpret fuel program s.machine)) := by
  unfold Machine.interpret
  cases Lox.executeAll fuel program s.machine with
  | unfinished => exact ⟨rfl, rfl⟩
  | done flow m =>
      dsimp only
      split
      · exact ⟨rfl, by simp [conclude]⟩
      · refine ⟨rfl, ?_⟩
        rintro _ ⟨⟩
        rfl
  | failed fault m =>
      dsimp only
      split
      · refine ⟨rfl, ?_⟩
        rintro _ ⟨⟩
        exact .inl rfl
      · refine ⟨rfl, ?_⟩
        rintro _ ⟨⟩
        exact .inr rfl

theorem leaves_evaluate (s : Session) {ending : Ending Value} :
    Leaves s.machine.heap ending (s.conclude .value ending) := by
  cases ending with
  | done v m => exact ⟨rfl, by simp [conclude]⟩
  | failed fault m =>
      refine ⟨rfl, ?_⟩
      rintro _ ⟨⟩
      exact .inl rfl
  | unfinished => exact ⟨rfl, rfl⟩

theorem leaves_take {start : Moment} (hstart : s.start? step = some start) :
    Leaves s.machine.heap start.ending (s.take step) := by
  cases step with
  | run fuel source =>
      obtain ⟨⟨program, s'⟩, hunit, rfl⟩ := Option.map_eq_some_iff.mp hstart
      obtain ⟨hops, hmachine⟩ := machine_of_unit? hunit
      have hheap : s.machine.heap = s'.machine.heap := by
        rw [hmachine]
        rfl
      rw [take, run_of_unit? hunit, hheap]
      exact leaves_map_iff.mpr (leaves_interpret s' fuel program)
  | evaluate fuel source =>
      obtain ⟨e, he, rfl⟩ := Option.map_eq_some_iff.mp hstart
      rw [take, evaluate_of_expression? he]
      refine leaves_map_iff.mpr ?_
      exact leaves_evaluate { s with nextNode := (e.numbered s.nextNode).2 }
  | writeTo sink => cases hstart

/-- A fault in the answer is the one with which the run of the step failed, unless it is that of the
flush. -/
theorem exists_failed_of_take {start : Moment} {fault : Diagnostic}
    (hstart : s.start? step = some start) (hfault : (s.take step).1 = .runtimeError fault)
    (hflush : fault ≠ .output .flushFailed) : ∃ m, start.ending = .failed fault m := by
  have hleaves := leaves_take hstart
  cases hending : start.ending with
  | unfinished =>
      rw [hending] at hleaves
      rw [hleaves.2] at hfault
      cases hfault
  | done vs m =>
      rw [hending] at hleaves
      exact absurd (hleaves.2 fault hfault) hflush
  | failed fault' m =>
      rw [hending] at hleaves
      obtain rfl := (hleaves.2 fault hfault).resolve_right hflush
      exact ⟨m, rfl⟩

theorem heap_of_start?_eq_none (hstart : s.start? step = none) :
    (s.take step).2.machine.heap = s.machine.heap ∧
      ∀ fault, (s.take step).1 ≠ .runtimeError fault := by
  cases step with
  | run fuel source =>
      have hunit : s.unit? source = none := Option.map_eq_none_iff.mp hstart
      obtain ⟨_, hanswer, hsession⟩ := run_of_unit?_eq_none hunit fuel
      refine ⟨?_, fun fault h => by rw [take, hanswer] at h; cases h⟩
      rcases hsession with hsame | hnumbered
      · rw [take, hsame]
      · rw [take, hnumbered]
        rfl
  | evaluate fuel source =>
      have he : expression? source = none := Option.map_eq_none_iff.mp hstart
      obtain ⟨_, hsame⟩ := evaluate_of_expression?_eq_none (s := s) he fuel
      rw [take, hsame]
      exact ⟨rfl, fun fault h => nomatch h⟩
  | writeTo sink => exact ⟨rfl, fun fault h => nomatch h⟩

/-- A step in which the discipline holds of the text and of what it comes to. -/
structure Step.Obeys (D : Discipline) (s : Session) (step : Step) : Prop where
  marked : ∀ start ∈ s.start? step, D.Marked start.task.marks
  moments : ∀ x, s.Passes step x → D.moment x

variable (hs : D.Keeps s.machine) (hstep : Step.Obeys D s step)
include hs hstep

theorem admits_of_start? {start : Moment} (hstart : s.start? step = some start) :
    D.Admits start := by
  have hmarked := hstep.marked start hstart
  have hforesees : ∀ y, Within start y → D.moment y :=
    fun y hy => hstep.moments y ⟨start, hstart, hy⟩
  cases step with
  | run fuel source =>
      obtain ⟨⟨program, s'⟩, hunit, rfl⟩ := Option.map_eq_some_iff.mp hstart
      obtain ⟨hops, hmachine⟩ := machine_of_unit? hunit
      refine ⟨?_, hforesees, hmarked⟩
      rw [hmachine]
      exact ⟨hs.current, hs.stores⟩
  | evaluate fuel source =>
      obtain ⟨e, -, rfl⟩ := Option.map_eq_some_iff.mp hstart
      exact ⟨hs, hforesees, hmarked⟩
  | writeTo sink => cases hstart

/-- Every moment that a step comes to is admitted. -/
theorem admits_of_passes {x : Moment} (hx : s.Passes step x) : D.Admits x := by
  obtain ⟨start, hstart, hwithin⟩ := hx
  exact (admits_of_start? hs hstep hstart).within hwithin

/-- A step leaves a machine that keeps to the discipline. -/
theorem keeps_take (hrest : s.AtRest) : D.Keeps (s.take step).2.machine := by
  refine ⟨?_, ?_⟩
  · rw [(hrest.take step).current]
    exact D.outermost
  · cases hstart : s.start? step with
    | none =>
        rw [(heap_of_start?_eq_none hstart).1]
        exact hs.stores
    | some start =>
        have hends := (admits_of_start? hs hstep hstart).ends
        have hleaves := leaves_take hstart
        rw [Discipline.Ends] at hends
        cases hending : start.ending with
        | unfinished =>
            rw [hending] at hleaves
            rw [hleaves.1]
            exact hs.stores
        | done vs m | failed fault m =>
            rw [hending] at hleaves hends
            rw [hleaves.1]
            exact hends.2.1.stores

theorem explains_of_take {fault : Diagnostic} (hfault : (s.take step).1 = .runtimeError fault) :
    D.Explains fault := by
  cases hstart : s.start? step with
  | none => exact absurd hfault ((heap_of_start?_eq_none hstart).2 fault)
  | some start =>
      by_cases hflush : fault = .output .flushFailed
      · rw [hflush]
        exact Discipline.explains_of_ne (by simp)
      · obtain ⟨m, hending⟩ := exists_failed_of_take hstart hfault hflush
        have hends := (admits_of_start? hs hstep hstart).ends
        rw [Discipline.Ends, hending] at hends
        exact hends.2.2

end Session

end Lox
