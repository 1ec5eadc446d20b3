import Lox.Proofs.Marks.Sessions
import Lox.Proofs.Printing.Pouring
import Lox.Proofs.Printing.Texts
import Lox.Proofs.Running.Fuel
import Lox.Proofs.Running.Outcomes

namespace Lox

open Resolution

section

variable {context : Context} {w : Walk}

mutual

theorem resolveExpr_of_topLevel (hw : w.frames = []) :
    ∀ e : Expr NodeId, (∀ t, .receiver t ∉ e.marks) → resolveExpr context e w = w
  | .literal _, _ => rfl
  | .grouping inner, he => resolveExpr_of_topLevel hw inner he
  | .unary _ operand, he =>
      resolveExpr_of_topLevel hw operand fun t ht => he t (List.mem_cons_of_mem _ ht)
  | .binary left _ right, he | .logical left _ right, he => by
      simp only [Expr.marks, List.mem_cons, List.mem_append, reduceCtorEq, false_or, not_or] at he
      rw [resolveExpr, resolveExpr_of_topLevel hw left fun t => (he t).1,
        resolveExpr_of_topLevel hw right fun t => (he t).2]
  | .var _ _, _ => by
      rw [resolveExpr, Walk.refer, hw]
      rfl
  | .assign _ _ value, he => by
      rw [resolveExpr, resolveExpr_of_topLevel hw value fun t ht =>
        he t (List.mem_cons_of_mem _ ht), Walk.refer, hw]
      rfl
  | .call callee _ arguments, he => by
      simp only [Expr.marks, List.mem_append, not_or] at he
      rw [resolveExpr, resolveExpr_of_topLevel hw callee fun t => (he t).1,
        resolveExprs_of_topLevel hw arguments fun t => (he t).2]
  | .get object _, he =>
      resolveExpr_of_topLevel hw object fun t ht => he t (List.mem_cons_of_mem _ ht)
  | .set object _ value, he => by
      simp only [Expr.marks, List.mem_cons, List.mem_append, reduceCtorEq, false_or, not_or] at he
      rw [resolveExpr, resolveExpr_of_topLevel hw value fun t => (he t).2,
        resolveExpr_of_topLevel hw object fun t => (he t).1]
  | .this _ keyword, he => absurd List.mem_cons_self (he keyword)

theorem resolveExprs_of_topLevel (hw : w.frames = []) :
    ∀ es : List (Expr NodeId), (∀ t, .receiver t ∉ Expr.marksAll es) →
      resolveExprs context es w = w
  | [], _ => rfl
  | e :: es, hes => by
      simp only [Expr.marksAll, List.mem_append, not_or] at hes
      rw [resolveExprs, resolveExpr_of_topLevel hw e fun t => (hes t).1,
        resolveExprs_of_topLevel hw es fun t => (hes t).2]

end

end

theorem Run.Pours.exists_sink {α : Type} {r : Run α} {m m' : Machine} (h : r.Pours)
    (hsink : m.sink.Unfailing) (hm : (r m).machine? = some m') :
    ∃ written, m'.sink = m.sink.append written := by
  obtain ⟨written, ending, hrun⟩ := h m
  have hrun : r m = ending.writingTo (m.sink.append written) := hrun m.sink hsink
  rw [hrun] at hm
  cases ending with
  | done a m₁ | failed fault m₁ =>
      cases hm
      exact ⟨written, rfl⟩
  | unfinished => cases hm

section

variable {n fuel : Nat} {e : Expr NodeId} {m m' : Machine} {v : Value} {fault : Diagnostic}

/-- A unit with one statement has two levels of fuel around what this evaluates. -/
theorem executeAll_print (hle : n + 2 ≤ fuel) (h : evaluate n e m ≠ .unfinished) :
    executeAll fuel [.print e] m =
      (do
        let value ← evaluate n e
        Run.print value
        pure .normal : Run Flow) m := by
  obtain ⟨k, rfl⟩ := Nat.exists_eq_add_of_le' hle
  have hmore := evaluate_below_of_le (Nat.le_add_left n k) e m h
  rw [← Nat.add_assoc, executeAll, Run.bind_apply, execute, Run.bind_apply, hmore, Run.bind_apply]
  cases evaluate n e m with
  | done v m' =>
      dsimp only
      rw [Run.bind_apply]
      cases Run.print v m' <;> rfl
  | failed fault m' => rfl
  | unfinished => rfl

theorem interpret_print_of_done (hle : n + 2 ≤ fuel) (h : evaluate n e m = .done v m')
    (hsink : m'.sink.Unfailing) (hrest : m'.atRest = m') :
    Machine.interpret fuel [.print e] m =
      .done () (m'.writingTo (m'.sink.append (v.text ++ "\n"))) := by
  have hprinted : (m'.writingTo (m'.sink.append (v.text ++ "\n"))).atRest =
      m'.writingTo (m'.sink.append (v.text ++ "\n")) :=
    congrArg (fun m => m.writingTo (m'.sink.append (v.text ++ "\n"))) hrest
  rw [Machine.interpret, executeAll_print hle (by simp [h]), Run.bind_apply, h]
  dsimp only
  rw [Run.bind_apply, Run.print_of_unfailing hsink]
  dsimp only [Run.pure_apply]
  rw [hprinted]
  exact if_pos hsink.flushes

theorem interpret_print_of_failed (hle : n + 2 ≤ fuel) (h : evaluate n e m = .failed fault m')
    (hsink : m'.sink.Unfailing) (hrest : m'.atRest = m') :
    Machine.interpret fuel [.print e] m = .failed fault m' := by
  rw [Machine.interpret, executeAll_print hle (by simp [h]), Run.bind_apply, h]
  dsimp only
  rw [hrest]
  exact if_pos hsink.flushes

end

namespace Session

variable {s : Session} {source : String} {e : Expr Unit}

theorem expression?_eq_some_iff :
    expression? source = some e ↔ readExpression source = ⟨some e, []⟩ := by
  unfold expression?
  generalize readExpression source = read
  obtain ⟨value, reports⟩ := read
  cases value <;> cases reports <;> simp

theorem unit?_print (he : expression? source = some e)
    (hthis : ∀ t ∈ Scan.tokens source, t.kind ≠ .keyword .this_) :
    s.unit? ("print " ++ source ++ "\n;") =
      some ([.print (e.numbered s.nextNode).1],
        { s with nextNode := (e.numbered s.nextNode).2 }) := by
  have hmarks : ∀ t, .receiver t ∉ (e.numbered s.nextNode).1.marks := by
    intro t ht
    obtain ⟨hproper, htoken⟩ := marks_of_expression? he s.nextNode _ ht
    exact hthis t htoken hproper
  have hresolve : Resolution.resolve s.machine.globalNames [.print (e.numbered s.nextNode).1] =
      ⟨∅, []⟩ := by
    rw [Resolution.resolve, resolveStmts, resolveStmt, resolveExpr_of_topLevel rfl _ hmarks]
    rfl
  refine unit?_eq_some_iff.mpr ⟨_, readProgram_print (expression?_eq_some_iff.mp he), rfl,
    congrArg Resolved.reports hresolve, ?_⟩
  have hlearned := congrArg (fun resolved => (s.number [.print e]).2.learn resolved.hops) hresolve
  exact hlearned.symm

end Session

end Lox
