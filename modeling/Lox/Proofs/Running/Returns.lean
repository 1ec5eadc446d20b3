import Lox.Proofs.Running.Fuel
import Lox.Proofs.Running.Sessions
import Lox.Proofs.Scoping.Distinct

namespace Lox

open Resolution

namespace Run

variable {α : Type} {m m' : Machine}

theorem exists_of_inScope_done {scope : ScopeId} {body : Run α} {v : α}
    (h : inScope scope body m = .done v m') :
    ∃ m₁, body { m with current := scope } = .done v m₁ ∧
      m' = { m₁ with current := m.current } := by
  unfold inScope at h
  dsimp only at h
  split at h
  · rename_i hbody
    cases h
    exact ⟨_, hbody, rfl⟩
  · cases h
  · cases h

end Run

variable {known : List String} {S : Surroundings} {n : Nat} {m m' : Machine} {flow : Flow}

theorem Surroundings.role_declareAll (names : List Token) :
    (S.declareAll names).role = S.role :=
  congrArg Context.role (Surroundings.context_declareAll S names)

/-- Whatever is accepted outside of functions ends normally, if it is done. -/
structure GoesOn (n : Nat) : Prop where
  execute : ∀ {known : List String} {S : Surroundings} {s : Stmt NodeId} {m m' : Machine}
    {flow : Flow}, S.role = none → Quiet known (s.occurrences S) →
      execute n s m = .done flow m' → flow = .normal
  executeAll : ∀ {known : List String} {S : Surroundings} {ss : List (Stmt NodeId)}
    {m m' : Machine} {flow : Flow}, S.role = none → Quiet known (Stmt.occurrencesAll S ss) →
      executeAll n ss m = .done flow m' → flow = .normal

theorem execute_goesOn (ih : GoesOn n) (hS : S.role = none) {s : Stmt NodeId}
    (hquiet : Quiet known (s.occurrences S)) (h : execute (n + 1) s m = .done flow m') :
    flow = .normal := by
  cases s with
  | expression e =>
      obtain ⟨_, _, -, h⟩ := Run.exists_of_bind_done h
      cases h
      rfl
  | print e =>
      obtain ⟨_, _, -, h⟩ := Run.exists_of_bind_done h
      obtain ⟨_, _, -, h⟩ := Run.exists_of_bind_done h
      cases h
      rfl
  | var name initial =>
      cases initial with
      | none =>
          obtain ⟨_, _, -, h⟩ := Run.exists_of_bind_done h
          cases h
          rfl
      | some e =>
          obtain ⟨_, _, -, h⟩ := Run.exists_of_bind_done h
          obtain ⟨_, _, -, h⟩ := Run.exists_of_bind_done h
          cases h
          rfl
  | block body =>
      rw [execute_block] at h
      obtain ⟨_, h, -⟩ := Run.exists_of_inScope_done h
      exact ih.executeAll (S := S.inBlock) hS hquiet h
  | branch condition consequent alternative =>
      obtain ⟨v, _, -, h⟩ := Run.exists_of_bind_done h
      cases alternative with
      | none =>
          have hconsequent := (quiet_append.mp hquiet).2
          split at h
          · exact ih.execute hS hconsequent h
          · cases h
            rfl
      | some alternative =>
          obtain ⟨hquiet, halternative⟩ := quiet_append.mp hquiet
          have hconsequent := (quiet_append.mp hquiet).2
          split at h
          · exact ih.execute hS hconsequent h
          · exact ih.execute ((Surroundings.role_declareAll _).trans hS) halternative h
  | loop condition body =>
      obtain ⟨v, _, -, h⟩ := Run.exists_of_bind_done h
      split at h
      · obtain ⟨flow', _, hbody, h⟩ := Run.exists_of_bind_done h
        obtain rfl := ih.execute hS (quiet_append.mp hquiet).2 hbody
        exact ih.execute hS hquiet h
      · cases h
        rfl
  | function d =>
      obtain ⟨_, _, -, h⟩ := Run.exists_of_bind_done h
      obtain ⟨_, _, -, h⟩ := Run.exists_of_bind_done h
      cases h
      rfl
  | ret keyword value =>
      have hreported := hquiet _ List.mem_cons_self
      rw [Occurrence.violation?] at hreported
      dsimp only at hreported
      rw [if_pos hS] at hreported
      cases hreported
  | class_ name methods =>
      obtain ⟨_, _, -, h⟩ := Run.exists_of_bind_done h
      obtain ⟨_, _, -, h⟩ := Run.exists_of_bind_done h
      cases h
      rfl

theorem executeAll_goesOn (ih : GoesOn n) (hS : S.role = none) {ss : List (Stmt NodeId)}
    (hquiet : Quiet known (Stmt.occurrencesAll S ss))
    (h : executeAll (n + 1) ss m = .done flow m') : flow = .normal := by
  cases ss with
  | nil =>
      cases h
      rfl
  | cons s ss =>
      obtain ⟨hs, hss⟩ := quiet_append.mp hquiet
      obtain ⟨flow', _, hfirst, h⟩ := Run.exists_of_bind_done h
      obtain rfl := ih.execute hS hs hfirst
      exact ih.executeAll ((Surroundings.role_declareAll _).trans hS) hss h

theorem goesOn (n : Nat) : GoesOn n := by
  induction n with
  | zero =>
      constructor
      all_goals
        intros
        contradiction
  | succ n ih => exact ⟨fun hS => execute_goesOn ih hS, fun hS => executeAll_goesOn ih hS⟩

/-- An accepted program comes to its last statement, unless it fails or is cut off. -/
theorem flow_of_executeAll {globals : List String} {program : List (Stmt NodeId)}
    (hreports : (resolve globals program).reports = [])
    (h : executeAll n program m = .done flow m') : flow = .normal :=
  (goesOn n).executeAll rfl (quiet_of_resolve hreports) h

/-- A text that runs to its end is accepted, and its program comes to its last statement. -/
theorem Session.exists_of_completed {s : Session} {source : String} {fuel : Nat}
    (h : (s.run fuel source).1 = .completed) :
    ∃ program s' m, s.unit? source = some (program, s') ∧
      executeAll fuel program s'.machine = .done .normal m ∧
      (s.run fuel source).2 = { s' with machine := m.atRest } := by
  cases hunit : s.unit? source with
  | none =>
      obtain ⟨faults, hfaults, -⟩ := run_of_unit?_eq_none hunit fuel
      rw [hfaults] at h
      cases h
  | some unit =>
      obtain ⟨program, s'⟩ := unit
      obtain ⟨tree, -, -, hreports, -⟩ := unit?_eq_some_iff.mp hunit
      rw [run_of_unit? hunit] at h ⊢
      unfold Machine.interpret at h ⊢
      dsimp only at h ⊢
      cases hrun : executeAll fuel program s'.machine with
      | done flow m =>
          obtain rfl := flow_of_executeAll hreports hrun
          rw [hrun] at h
          refine ⟨program, s', m, rfl, hrun, ?_⟩
          dsimp only
          split <;> rfl
      | failed fault m =>
          rw [hrun] at h
          dsimp only at h
          split at h <;> cases h
      | unfinished =>
          rw [hrun] at h
          cases h

end Lox
