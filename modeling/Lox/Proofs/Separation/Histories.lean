import Lox.Proofs.Discipline.Sessions
import Lox.Proofs.Separation.Timeline

namespace Lox.Session

variable {clock : Nat → Float} {history : List (Session × Step)} {s s' : Session}
  {step step' : Step}
  {x y : Moment}

/-- One of the steps comes to this moment. -/
def Occurs (history : List (Session × Step)) (x : Moment) : Prop :=
  ∃ s step, (s, step) ∈ history ∧ s.Passes step x

theorem Occurs.part (h : Occurs history x) (hpart : Part x y) : Occurs history y := by
  obtain ⟨s, step, hmem, start, hstart, hwithin⟩ := h
  exact ⟨s, step, hmem, start, hstart, hwithin.tail hpart⟩

theorem Occurs.mono {more : List (Session × Step)} (h : Occurs history x)
    (hsubset : history ⊆ more) : Occurs more x := by
  obtain ⟨s, step, hmem, hx⟩ := h
  exact ⟨s, step, hsubset hmem, hx⟩

theorem occurs_cons_iff :
    Occurs ((s, step) :: history) x ↔ s.Passes step x ∨ Occurs history x := by
  constructor
  · rintro ⟨s', step', hmem, hx⟩
    rcases List.mem_cons.mp hmem with heq | hmem
    · cases heq
      exact .inl hx
    · exact .inr ⟨s', step', hmem, hx⟩
  · rintro (hx | ⟨s', step', hmem, hx⟩)
    · exact ⟨s, step, List.mem_cons_self, hx⟩
    · exact ⟨s', step', List.mem_cons_of_mem _ hmem, hx⟩

theorem Reached.exists_of_mem (h : Reached clock history s) (hmem : (s', step') ∈ history) :
    ∃ before, Reached clock before s' ∧ (s', step') :: before ⊆ history := by
  induction h with
  | new => cases hmem
  | @step history s h step hends ih =>
      rcases List.mem_cons.mp hmem with heq | hmem
      · cases heq
        exact ⟨history, h, List.Subset.refl _⟩
      · obtain ⟨before, hbefore, hsubset⟩ := ih hmem
        exact ⟨before, hbefore, List.subset_cons_of_subset _ hsubset⟩

theorem Reached.exists_of_mem_cons (h : Reached clock history s)
    (hmem : (s', step') ∈ (s, step) :: history) :
    ∃ before, Reached clock before s' ∧ (s', step') :: before ⊆ (s, step) :: history := by
  rcases List.mem_cons.mp hmem with heq | hmem
  · cases heq
    exact ⟨history, h, List.Subset.refl _⟩
  · obtain ⟨before, hbefore, hsubset⟩ := h.exists_of_mem hmem
    exact ⟨before, hbefore, List.subset_cons_of_subset _ hsubset⟩

theorem heap_of_start? {start : Moment} (h : s.start? step = some start) :
    start.machine.heap = s.machine.heap := by
  cases step with
  | run fuel source =>
      obtain ⟨⟨program, s'⟩, hunit, rfl⟩ := Option.map_eq_some_iff.mp h
      obtain ⟨hops, hmachine⟩ := machine_of_unit? hunit
      dsimp only
      rw [hmachine]
      rfl
  | evaluate fuel source =>
      obtain ⟨e, -, rfl⟩ := Option.map_eq_some_iff.mp h
      rfl
  | writeTo sink => cases h

theorem Passes.extends (h : s.Passes step x) : s.machine.scopes.Extends x.machine.scopes := by
  obtain ⟨start, hstart, hwithin⟩ := h
  have hscopes : start.machine.scopes = s.machine.scopes :=
    congrArg Heap.scopes (heap_of_start? hstart)
  rw [← hscopes]
  exact Within.extends hwithin

theorem exists_left_of_take {start : Moment} (hstart : s.start? step = some start)
    (hends : (s.take step).1 ≠ .unfinished) :
    ∃ m, start.Left m ∧ (s.take step).2.machine.heap = m.heap := by
  have hleaves := leaves_take hstart
  unfold Moment.Left
  cases hending : start.ending with
  | done vs m | failed fault m =>
      rw [hending] at hleaves
      exact ⟨m, rfl, hleaves.1⟩
  | unfinished =>
      rw [hending] at hleaves
      exact absurd hleaves.2 hends

theorem extends_take (s : Session) (step : Step) (hends : (s.take step).1 ≠ .unfinished) :
    s.machine.scopes.Extends (s.take step).2.machine.scopes := by
  cases hstart : s.start? step with
  | none =>
      have hscopes : (s.take step).2.machine.scopes = s.machine.scopes :=
        congrArg Heap.scopes (heap_of_start?_eq_none hstart).1
      rw [hscopes]
      exact .refl _
  | some start =>
      obtain ⟨m, hleft, hheap⟩ := exists_left_of_take hstart hends
      have hbefore : start.machine.scopes = s.machine.scopes :=
        congrArg Heap.scopes (heap_of_start? hstart)
      have hafter : (s.take step).2.machine.scopes = m.scopes := congrArg Heap.scopes hheap
      rw [← hbefore, hafter]
      exact hleft.extends

/-- All scopes that were made by steps that have ended are there. -/
theorem Reached.lt_size (h : Reached clock history s) (hx : Occurs history x)
    (hmakes : x.makes?.isSome) : x.machine.scopes.size < s.machine.scopes.size := by
  induction h with
  | new =>
      obtain ⟨_, _, hmem, -⟩ := hx
      cases hmem
  | @step history s h step hends ih =>
      rcases occurs_cons_iff.mp hx with ⟨start, hstart, hwithin⟩ | hx
      · obtain ⟨m, hleft, hheap⟩ := exists_left_of_take hstart hends
        have hsize := congrArg (fun h => h.scopes.size) hheap
        exact Nat.lt_of_lt_of_eq (Within.lt_size hwithin hleft hmakes) hsize.symm
      · exact Nat.lt_of_lt_of_le (ih hx) (extends_take s step hends).size_le

/-- No two moments of a step make the same scope. -/
theorem Passes.eq_of_makes (hx : s.Passes step x) (hy : s.Passes step y)
    (hmakes : x.makes?.isSome) (hmakes' : y.makes?.isSome)
    (hsize : x.machine.scopes.size = y.machine.scopes.size) : x = y := by
  obtain ⟨start, hstart, hx⟩ := hx
  obtain ⟨start', hstart', hy⟩ := hy
  obtain rfl : start = start' := Option.some.inj (hstart.symm.trans hstart')
  exact Within.eq_of_makes hx hy hmakes hmakes' hsize

/-- No two of the moments make the same scope. -/
def MakeApart (history : List (Session × Step)) : Prop :=
  ∀ x y, Occurs history x → Occurs history y → x.makes?.isSome → y.makes?.isSome →
    x.machine.scopes.size = y.machine.scopes.size → x = y

theorem MakeApart.cons (hold : MakeApart history) (h : Reached clock history s) (step : Step) :
    MakeApart ((s, step) :: history) := by
  have hearlier : ∀ {x y : Moment}, Occurs history x → s.Passes step y → x.makes?.isSome →
      x.machine.scopes.size ≠ y.machine.scopes.size := by
    intro x y hx hy hmakes
    exact Nat.ne_of_lt (Nat.lt_of_lt_of_le (h.lt_size hx hmakes) hy.extends.size_le)
  intro x y hx hy hmakes hmakes' hsize
  rcases occurs_cons_iff.mp hx with hx | hx <;> rcases occurs_cons_iff.mp hy with hy | hy
  · exact hx.eq_of_makes hy hmakes hmakes' hsize
  · exact absurd hsize.symm (hearlier hy hx hmakes')
  · exact absurd hsize (hearlier hx hy hmakes)
  · exact hold x y hx hy hmakes hmakes' hsize

/-- No two moments of a session make the same scope. -/
theorem Reached.makeApart (h : Reached clock history s) : MakeApart history := by
  induction h with
  | new =>
      rintro x y ⟨_, _, hmem, -⟩
      cases hmem
  | step h step hends ih => exact ih.cons h step

end Lox.Session
