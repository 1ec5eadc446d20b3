import Lox.Proofs.Syntax.Derivation
import Lox.Proofs.Syntax.Program
import Lox.Proofs.Syntax.Readable

/-!
What is read without a report is what the grammar derives.
-/

namespace Lox.Parsing

open Grammar

theorem derives_program_iff {ts : List Token} :
    DerivesTokens (some entryLimit) (.rule .program) ts ↔
      ∃ ss, ReadsAsStmt ts (.declarations ss) := by
  constructor
  · intro h
    exact meets_of_derives h rfl
  · rintro ⟨ss, h⟩
    exact .rule h.derives

theorem derives_expression_iff {ts : List Token} :
    DerivesTokens (some entryLimit) (.rule .expression) ts ↔
      ∃ e, ReadsAs ts (.expression e) := by
  constructor
  · intro h
    exact meets_of_derives h rfl
  · rintro ⟨e, h⟩
    exact h.derives_expression

/-- A program, and a single expression, is read without a report exactly if the grammar derives
the kinds of its tokens, with `entryLimit` entries at most in each list. -/
theorem reports_eq_nil_iff_derives (tokens : List Token) :
    ((program tokens).reports = [] ↔
        Derives (some entryLimit) (.rule .program) ((contents tokens).map Token.kind)) ∧
      ((singleExpression tokens).reports = [] ↔
        Derives (some entryLimit) (.rule .expression) ((contents tokens).map Token.kind)) :=
  ⟨program_reports_eq_nil_iff.trans derives_program_iff.symm,
    singleExpression_reports_eq_nil_iff.trans derives_expression_iff.symm⟩

end Lox.Parsing
