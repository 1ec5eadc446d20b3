import Lox.Proofs.Syntax.StatementComplete

namespace Lox.Parsing

theorem declarationsAfter_sound (stop : Token) (before : Array (Stmt Unit))
    (reports : Array Diagnostic) (tokens : List Token)
    (h : (declarationsAfter stop before reports tokens).reports = []) :
    reports = #[] ∧ ∃ ss, (declarationsAfter stop before reports tokens).value =
      before.toList ++ ss ∧ ReadsAsStmt tokens (.declarations ss) := by
  cases tokens with
  | nil =>
      rw [declarationsAfter] at h ⊢
      exact ⟨Array.toList_eq_nil_iff.mp h, [], by simp, .noDeclarations⟩
  | cons t rest =>
      rw [declarationsAfter] at h ⊢
      have hdeclaration := declaration_reads stop t rest
      generalize declaration Reply stop t rest = d at h hdeclaration ⊢
      obtain ⟨first, after, more, hprogress⟩ := d
      dsimp only at h hdeclaration ⊢
      obtain ⟨hreports, ss, hvalue, hss⟩ := declarationsAfter_sound stop _ _ after h
      obtain ⟨rfl, rfl⟩ : reports = #[] ∧ more = [] := by
        simpa using congrArg Array.toList hreports
      obtain ⟨s, read, rfl, hread, hs⟩ := hdeclaration rfl
      rw [hvalue, hread]
      exact ⟨rfl, s :: ss, by simp, .declarations hs hss⟩
termination_by tokens.length

theorem contents_append {ts : List Token} {stop : Token} (hts : ∀ t ∈ ts, t.isEnd = false)
    (hstop : stop.isEnd) :
    contents (ts ++ [stop]) = ts := by
  rw [contents, List.takeWhile_append_of_pos (by simpa using hts),
    List.takeWhile_cons_of_neg (by simp [hstop]), List.append_nil]

theorem program_eq_iff {tokens : List Token} {ss : List (Stmt Unit)} :
    program tokens = ⟨ss, []⟩ ↔ ReadsAsStmt (contents tokens) (.declarations ss) := by
  constructor
  · intro h
    obtain ⟨_, ss', hvalue, hss'⟩ := declarationsAfter_sound (stop tokens) #[] #[] (contents tokens)
      (congrArg Parsed.reports h)
    have heq : ss = ss' := (congrArg Parsed.value h).symm.trans (by simpa [program] using hvalue)
    rw [heq]
    exact hss'
  · intro h
    have haccepts := (accepts_of_readsAsStmt (stop tokens) h).2 #[] #[] [] (by simp [NoElse])
    rw [List.append_nil] at haccepts
    rw [program, haccepts, declarationsAfter]
    simp

theorem program_reports_eq_nil_iff {tokens : List Token} :
    (program tokens).reports = [] ↔ ∃ ss, ReadsAsStmt (contents tokens) (.declarations ss) := by
  constructor
  · intro h
    exact ⟨(program tokens).value, program_eq_iff.mp (by rw [← h])⟩
  · rintro ⟨ss, h⟩
    rw [program_eq_iff.mpr h]

theorem singleExpression_eq_iff {tokens : List Token} {e : Expr Unit} :
    singleExpression tokens = ⟨some e, []⟩ ↔ ReadsAs (contents tokens) (.expression e) := by
  constructor
  · intro h
    have hreads := expression_reads (stop tokens) (contents tokens)
    unfold singleExpression at h
    split at h
    · rename_i e' reports haccepts
      obtain ⟨rfl, rfl⟩ : e' = e ∧ reports = [] := by simpa using h
      obtain ⟨read, hread, he⟩ := hreads e' [] haccepts
      rw [hread, List.append_nil]
      exact he
    · simp at h
    · simp at h
  · intro h
    have haccepts := accepts_of_readsAs (stop tokens) h []
      ⟨by simp [Stops], by simp⟩
    rw [List.append_nil] at haccepts
    rw [singleExpression, haccepts]

theorem singleExpression_reports_eq_nil_iff {tokens : List Token} :
    (singleExpression tokens).reports = [] ↔
      ∃ e, ReadsAs (contents tokens) (.expression e) := by
  constructor
  · intro h
    have heq : ∃ e, singleExpression tokens = ⟨some e, []⟩ := by
      unfold singleExpression at h ⊢
      split <;> simp_all
    obtain ⟨e, he⟩ := heq
    exact ⟨e, singleExpression_eq_iff.mp he⟩
  · rintro ⟨e, h⟩
    rw [singleExpression_eq_iff.mpr h]

end Lox.Parsing
