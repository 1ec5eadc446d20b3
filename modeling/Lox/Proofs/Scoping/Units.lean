import Lox.Proofs.Scoping.Distinct
import Lox.Tree.Numbering

namespace Lox

open Resolution Scoping

section

variable {Label : Type}

theorem Stmt.numberedList_append (next : NodeId) (before after : List (Stmt Label)) :
    Stmt.numberedList next (before ++ after) =
      ((Stmt.numberedList next before).1 ++
          (Stmt.numberedList (Stmt.numberedList next before).2 after).1,
        (Stmt.numberedList (Stmt.numberedList next before).2 after).2) := by
  induction before generalizing next with
  | nil => rfl
  | cons s before ih => simp [Stmt.numberedList, ih]

end

namespace Resolution

variable {context : Context} {globals more : List String} {before after : List (Stmt NodeId)}

theorem introduced_nil (names : List Token) : introduced names [] = [] := by
  induction names with
  | nil => rfl
  | cons name names ih => exact ih

theorem globals_declareAll_outermost (names : List Token) {S : Surroundings} (h : S.frames = []) :
    (S.declareAll names).globals = (names.map Token.lexeme).reverse ++ S.globals := by
  induction names generalizing S with
  | nil => rfl
  | cons name names ih =>
      have hdeclared : S.declare name false = { S with globals := name.lexeme :: S.globals } := by
        unfold Surroundings.declare
        rw [h]
      have hall := ih (S := S.declare name false) (by rw [hdeclared]; exact h)
      rw [List.map_cons, List.reverse_cons, List.append_assoc, List.singleton_append]
      rw [hdeclared] at hall
      rw [Surroundings.declareAll, List.foldl_cons, hdeclared]
      exact hall

/-- Where more names are known there are no more faults. -/
theorem violation?_mono (hsubset : globals ⊆ more) {o : Occurrence}
    (h : o.violation? globals = none) : o.violation? more = none := by
  obtain ⟨mention, S⟩ := o
  cases mention with
  | declaration name => exact h
  | ret keyword hasValue => exact h
  | reference node name use =>
      simp only [Occurrence.violation?] at h ⊢
      split at h
      · cases h
      · rename_i hplace
        rw [if_neg hplace]
        split at h
        · cases h
        · rename_i hknown
          refine if_neg fun hviolates => hknown ?_
          obtain ⟨hreads, hinitial, hunbound, hmore, hglobals⟩ := hviolates
          exact ⟨hreads, hinitial, hunbound, fun hname => hmore (hsubset hname), hglobals⟩

theorem reports_mono (hsubset : globals ⊆ more) (h : (resolve globals after).reports = []) :
    (resolve more after).reports = [] := by
  rw [reports_resolve, List.filterMap_eq_nil_iff]
  exact fun o ho => violation?_mono hsubset (quiet_of_resolve h o ho)

theorem resolveStmts_append (w : Walk) :
    resolveStmts context (before ++ after) w =
      resolveStmts context after (resolveStmts context before w) := by
  induction before generalizing w with
  | nil => rfl
  | cons s before ih => exact ih (resolveStmt context s w)

/-- The names that a program declares are known in those after it. -/
theorem reports_append (hbefore : (resolve globals before).reports = [])
    (hafter : (resolve ((before.flatMap Stmt.declared).map Token.lexeme ++ globals) after).reports =
      []) :
    (resolve globals (before ++ after)).reports = [] := by
  obtain ⟨hstands, -, hreports⟩ := resolveStmts_topLevel globals before
  have hframes := frames_resolveStmts .topLevel before ⟨[], globals, ∅, #[]⟩
  rw [← reports_resolve, hbefore] at hreports
  unfold resolve
  rw [resolveStmts_append]
  generalize resolveStmts .topLevel before ⟨[], globals, ∅, #[]⟩ = w at *
  -- the second program finds the walk as it starts where all the globals of it are known
  have hstart : w.Stands w.globals .outermost :=
    ⟨by rw [hframes, introduced_nil]; exact .nil, fun name => by simp [Surroundings.outermost]⟩
  have hsubset : (before.flatMap Stmt.declared).map Token.lexeme ++ globals ⊆ w.globals := by
    intro name hname
    rw [hstands.globals, globals_declareAll_outermost _ rfl]
    rcases List.mem_append.mp hname with hname | hname
    · exact .inr (List.mem_append_left _ (List.mem_reverse.mpr hname))
    · exact .inl hname
  have hfollows := (resolveStmts_follows Surroundings.settled_outermost hstart after).reports
  rwa [← reports_resolve, reports_mono hsubset hafter, hreports] at hfollows

end Resolution

end Lox
