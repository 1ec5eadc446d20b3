import Lox.Proofs.Calls.Courses
import Lox.Proofs.Running.Returns
import Mathlib.Data.List.Chain

namespace Lox

open Run

variable {n : Nat} {m m' : Machine} {x y : Moment} {v : Value} {before after : List Moment}

theorem Run.inScope_of_done {α : Type} {r : Run α} {a : α} {scope : ScopeId}
    (h : r { m with current := scope } = .done a m') :
    inScope scope r m = .done a { m' with current := m.current } := by
  unfold inScope
  dsimp only
  rw [h]

theorem Flow.values_eq_singleton_iff {flow : Flow} : flow.values = [v] ↔ flow = .returned v := by
  cases flow <;> simp [Flow.values]

/-- The moment executes a `return`, which has a value. -/
inductive Moment.ReturnsWith : Moment → Value → Prop
  | bare {n : Nat} {m : Machine} {keyword : Token} :
      ReturnsWith ⟨n + 1, .execute (.ret keyword none), m⟩ .nil
  | value {n : Nat} {m m' : Machine} {keyword : Token} {e : Expr NodeId} {v : Value}
      (h : evaluate n e m = .done v m') :
      ReturnsWith ⟨n + 1, .execute (.ret keyword (some e)), m⟩ v

namespace Moment.ReturnsWith

theorem isStatement (h : y.ReturnsWith v) : y.task.isStatement := by
  cases h <;> rfl

theorem exists_ending (h : y.ReturnsWith v) : ∃ m, y.ending = .done [v] m := by
  cases h with
  | bare => exact ⟨_, rfl⟩
  | value h => exact ⟨_, by rw [Moment.ending, execute, bind_of_done h]; rfl⟩

theorem not_isStatement_of_part (h : x.ReturnsWith v) (hpart : Part x y) :
    ¬y.task.isStatement := by
  cases h with
  | bare => cases hpart
  | value h =>
      cases hpart
      exact nofun

end Moment.ReturnsWith

namespace Part

theorem isStatement_or_isRoutine (h : Part x y) (hy : y.task.isStatement) :
    x.task.isStatement ∨ x.task.isRoutine := by
  cases h with
  | body => exact .inr rfl
  | block | consequent | alternative | loopBody | loopAgain | first | others => exact .inl rfl
  | _ => cases hy

theorem isRoutine_eq_false (h : Part x y) (hx : x.task.isStatement) :
    y.task.isRoutine = false := by
  cases h with
  | function | initializer => cases hx
  | _ => rfl

theorem exists_ending_of_returned (h : Part x y) (hx : x.task.isStatement)
    (hy : y.task.isStatement) (hreturned : y.ending = .done [v] m) :
    ∃ m', x.ending = .done [v] m' := by
  cases h with
  | block =>
      obtain ⟨_, hbody, hv⟩ := Ending.map_eq_done_iff.mp hreturned
      rw [Moment.ending, execute_block, inScope_of_done hbody, Ending.map, hv]
      exact ⟨_, rfl⟩
  | @consequent n m₀ m₁ e s other _ h hv =>
      have hbranch : execute (n + 1) (.branch e s other) m₀ = execute n s m₁ := by
        cases other <;> rw [execute, bind_of_done h, if_pos hv]
      exact ⟨m, by rw [Moment.ending, hbranch]; exact hreturned⟩
  | alternative h hv =>
      exact ⟨m, by rw [Moment.ending, execute, bind_of_done h, if_neg hv]; exact hreturned⟩
  | loopBody h hv =>
      obtain ⟨flow, hbody, hflow⟩ := Ending.map_eq_done_iff.mp hreturned
      obtain rfl := Flow.values_eq_singleton_iff.mp hflow
      exact ⟨m, by rw [Moment.ending, execute, bind_of_done h, if_pos hv, bind_of_done hbody]; rfl⟩
  | loopAgain h hv hs =>
      refine ⟨m, ?_⟩
      rw [Moment.ending, execute, bind_of_done h, if_pos hv, bind_of_done hs]
      exact hreturned
  | first =>
      obtain ⟨flow, hfirst, hflow⟩ := Ending.map_eq_done_iff.mp hreturned
      obtain rfl := Flow.values_eq_singleton_iff.mp hflow
      exact ⟨m, by rw [Moment.ending, executeAll, bind_of_done hfirst]; rfl⟩
  | others h => exact ⟨m, by rw [Moment.ending, executeAll, bind_of_done h]; exact hreturned⟩
  | body => cases hx
  | _ => cases hy

end Part

theorem execute_ending {s : Stmt NodeId} (h : execute n s m = .done (.returned v) m') :
    Moment.ending ⟨n, .execute s, m⟩ = .done [v] m' :=
  Ending.map_eq_done_iff.mpr ⟨_, h, rfl⟩

theorem executeAll_ending {ss : List (Stmt NodeId)}
    (h : executeAll n ss m = .done (.returned v) m') :
    Moment.ending ⟨n, .executeAll ss, m⟩ = .done [v] m' :=
  Ending.map_eq_done_iff.mpr ⟨_, h, rfl⟩

theorem exists_statement_part_of_returned {s : Stmt NodeId}
    (h : execute (n + 1) s m = .done (.returned v) m') :
    Moment.ReturnsWith ⟨n + 1, .execute s, m⟩ v ∨
      ∃ y m', Part ⟨n + 1, .execute s, m⟩ y ∧ y.task.isStatement ∧ y.ending = .done [v] m' := by
  cases s with
  | expression e =>
      obtain ⟨_, _, -, h⟩ := exists_of_bind_done h
      cases h
  | print e | function d | class_ name methods =>
      obtain ⟨_, _, -, h⟩ := exists_of_bind_done h
      obtain ⟨_, _, -, h⟩ := exists_of_bind_done h
      cases h
  | var name initial =>
      cases initial with
      | none =>
          obtain ⟨_, _, -, h⟩ := exists_of_bind_done h
          cases h
      | some e =>
          obtain ⟨_, _, -, h⟩ := exists_of_bind_done h
          obtain ⟨_, _, -, h⟩ := exists_of_bind_done h
          cases h
  | block body =>
      rw [execute_block] at h
      obtain ⟨m₁, hbody, -⟩ := exists_of_inScope_done h
      exact .inr ⟨_, m₁, .block, rfl, executeAll_ending hbody⟩
  | branch condition consequent alternative =>
      obtain ⟨w, m₁, hcondition, h⟩ := exists_of_bind_done h
      split at h
      · rename_i hw
        exact .inr ⟨_, m', .consequent hcondition hw, rfl, execute_ending h⟩
      · rename_i hw
        cases alternative with
        | none => cases h
        | some alternative =>
            exact .inr ⟨_, m', .alternative hcondition hw, rfl, execute_ending h⟩
  | loop condition body =>
      obtain ⟨w, m₁, hcondition, h⟩ := exists_of_bind_done h
      split at h
      · rename_i hw
        obtain ⟨flow, m₂, hbody, h⟩ := exists_of_bind_done h
        cases flow with
        | normal =>
            exact .inr ⟨_, m', .loopAgain hcondition hw hbody, rfl, execute_ending h⟩
        | returned v' =>
            cases h
            exact .inr ⟨_, m', .loopBody hcondition hw, rfl, execute_ending hbody⟩
      · cases h
  | ret keyword e =>
      cases e with
      | none =>
          cases h
          exact .inl .bare
      | some e =>
          obtain ⟨_, _, he, h⟩ := exists_of_bind_done h
          cases h
          exact .inl (.value he)

/-- A statement that returns is a `return`, or else one of its parts returns. -/
theorem exists_part_of_returned (hx : x.task.isStatement) (h : x.ending = .done [v] m) :
    x.ReturnsWith v ∨ ∃ y m', Part x y ∧ y.task.isStatement ∧ y.ending = .done [v] m' := by
  obtain ⟨fuel, task, m₀⟩ := x
  cases task with
  | execute s =>
      obtain ⟨flow, h, hflow⟩ := Ending.map_eq_done_iff.mp h
      obtain rfl := Flow.values_eq_singleton_iff.mp hflow
      cases fuel with
      | zero => cases h
      | succ n => exact exists_statement_part_of_returned h
  | executeAll ss =>
      obtain ⟨flow, h, hflow⟩ := Ending.map_eq_done_iff.mp h
      obtain rfl := Flow.values_eq_singleton_iff.mp hflow
      cases fuel with
      | zero => cases h
      | succ n =>
          cases ss with
          | nil => cases h
          | cons s ss =>
              obtain ⟨flow, m₁, hs, h⟩ := exists_of_bind_done h
              cases flow with
              | normal => exact .inr ⟨_, m, .others hs, rfl, executeAll_ending h⟩
              | returned v' =>
                  cases h
                  exact .inr ⟨_, m, .first, rfl, execute_ending hs⟩
  | _ => cases hx

namespace Moment

theorem ownParts_of_isStatement (hx : x.task.isStatement) : x.ownParts = x.parts := by
  refine List.filter_eq_self.mpr fun y hy => ?_
  rw [(mem_parts_iff.mp hy).isRoutine_eq_false hx]
  rfl

theorem isStatement_of_mem_activity (hx : x.task.isRoutine = false) (hmem : y ∈ x.activity)
    (hy : y.task.isStatement) : x.task.isStatement := by
  induction hfuel : x.fuel using Nat.strongRecOn generalizing x with
  | ind n ih =>
      rw [activity_eq] at hmem
      rcases List.mem_cons.mp hmem with rfl | hmem
      · exact hy
      · obtain ⟨p, hp, hmem⟩ := List.mem_flatMap.mp hmem
        obtain ⟨hpart, hroutine⟩ := mem_ownParts_iff.mp hp
        have hp := ih _ (hfuel ▸ hpart.fuel_lt) hroutine hmem rfl
        rcases hpart.isStatement_or_isRoutine hp with hstatement | hx'
        · exact hstatement
        · rw [hx] at hx'
          cases hx'

/-- What a `return` comes to is the evaluation of its value. -/
theorem ReturnsWith.not_isStatement_of_mem (h : y.ReturnsWith v) (hlast : y :: after = y.activity) :
    ∀ z ∈ after, ¬z.task.isStatement := by
  intro z hz hstatement
  obtain rfl := (List.cons.inj (hlast.trans y.activity_eq)).2
  obtain ⟨p, hp, hz⟩ := List.mem_flatMap.mp hz
  obtain ⟨hpart, hroutine⟩ := mem_ownParts_iff.mp hp
  exact h.not_isStatement_of_part hpart (isStatement_of_mem_activity hroutine hz hstatement)

theorem exists_of_flatMap_activity {xs : List Moment}
    (h : xs.flatMap activity = before ++ y :: after) :
    ∃ ps p qs inner rest, xs = ps ++ p :: qs ∧ p.activity = inner ++ y :: rest ∧
      after = rest ++ qs.flatMap activity := by
  induction xs generalizing before with
  | nil => simp at h
  | cons x xs ih =>
      rw [List.flatMap_cons] at h
      rcases List.append_eq_append_iff.mp h with ⟨rest, -, h⟩ | ⟨rest, hx, h⟩
      · obtain ⟨ps, p, qs, inner, rest, rfl, hp, hafter⟩ := ih h
        exact ⟨x :: ps, p, qs, inner, rest, rfl, hp, hafter⟩
      · cases rest with
        | nil =>
            obtain ⟨ps, p, qs, inner, rest, rfl, hp, hafter⟩ :=
              ih (show xs.flatMap activity = [] ++ y :: after from h.symm)
            exact ⟨x :: ps, p, qs, inner, rest, rfl, hp, hafter⟩
        | cons z rest =>
            obtain ⟨rfl, hafter⟩ := List.cons.inj h
            exact ⟨[], x, xs, before, rest, rfl, hx, hafter⟩

/-- A part that returns is the last one. -/
theorem eq_nil_of_returned {ps qs : List Moment} (hparts : x.parts = ps ++ y :: qs)
    (hy : y.task.isStatement) (hreturned : y.ending = .done [v] m) : qs = [] := by
  cases qs with
  | nil => rfl
  | cons z qs =>
      have hchain := (hparts ▸ x.parts_isChain).right_of_append
      obtain ⟨vs, hending, hvs⟩ := (List.isChain_cons_cons.mp hchain).1
      rw [hreturned, hvs hy] at hending
      cases hending

/-- A statement that returns is the last that a statement around it comes to, which returns as
well. -/
theorem activity_of_returned (hx : x.task.isStatement) (hsplit : x.activity = before ++ y :: after)
    (hy : y.task.isStatement) (hreturned : y.ending = .done [v] m) :
    y :: after = y.activity ∧ ∃ m', x.ending = .done [v] m' := by
  induction hfuel : x.fuel using Nat.strongRecOn generalizing x before after with
  | ind n ih =>
      cases before with
      | nil =>
          obtain rfl : x = y := (List.cons.inj (x.activity_eq.symm.trans hsplit)).1
          exact ⟨hsplit.symm, m, hreturned⟩
      | cons _ before =>
          have hactivity := (List.cons.inj (x.activity_eq.symm.trans hsplit)).2
          rw [ownParts_of_isStatement hx] at hactivity
          obtain ⟨ps, p, qs, inner, rest, hparts, hp, rfl⟩ := exists_of_flatMap_activity hactivity
          have hpart : Part x p := mem_parts_iff.mp (hparts ▸ by simp)
          have hstatement := isStatement_of_mem_activity (hpart.isRoutine_eq_false hx)
            (hp ▸ by simp) hy
          obtain ⟨hlast, m', hending⟩ := ih _ (hfuel ▸ hpart.fuel_lt) hstatement hp rfl
          obtain rfl := eq_nil_of_returned hparts hstatement hending
          rw [List.flatMap_nil, List.append_nil]
          exact ⟨hlast, hpart.exists_ending_of_returned hx hstatement hending⟩

/-- A statement that returns comes to a `return`. -/
theorem exists_returns (hx : x.task.isStatement) (h : x.ending = .done [v] m) :
    ∃ y ∈ x.activity, y.ReturnsWith v := by
  induction hfuel : x.fuel using Nat.strongRecOn generalizing x m with
  | ind n ih =>
      -- the part that returns has less fuel
      rcases exists_part_of_returned hx h with hreturns | ⟨p, m', hpart, hp, hending⟩
      · exact ⟨x, by rw [activity_eq]; exact List.mem_cons_self, hreturns⟩
      · obtain ⟨y, hy, hreturns⟩ := ih _ (hfuel ▸ hpart.fuel_lt) hp hending rfl
        have hown : p ∈ x.ownParts := mem_ownParts_iff.mpr ⟨hpart, hpart.isRoutine_eq_false hx⟩
        refine ⟨y, ?_, hreturns⟩
        rw [activity_eq]
        exact List.mem_cons_of_mem _ (List.mem_flatMap_of_mem hown hy)

end Moment

end Lox
