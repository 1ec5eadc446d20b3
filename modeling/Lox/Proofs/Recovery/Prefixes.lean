import Lox.Proofs.Recovery.Cursors
import Lox.Proofs.Recovery.Drops
import Lox.Proofs.Syntax.Program

/-!
What is read after declarations.

Reading does not look back: what comes after declarations without a fault is read as if it stood
alone, faults and recoveries included. No declaration looks further ahead than for an `else`.
-/

namespace Lox.Parsing

variable {stop : Token} {ts before after : List Token} {ss : List (Stmt Unit)}

theorem declarationsAfter_append (h : ReadsAsStmt ts (.declarations ss)) (hafter : NoElse after) :
    declarationsAfter stop #[] #[] (ts ++ after) =
      ⟨ss ++ (declarationsAfter stop #[] #[] after).value,
        (declarationsAfter stop #[] #[] after).reports⟩ := by
  rw [(accepts_of_readsAsStmt stop h).2 #[] #[] after hafter, declarationsAfter_eq]
  simp

theorem NoElse.contents (h : NoElse after) : NoElse (contents after) := by
  intro t ht
  cases after with
  | nil => cases ht
  | cons u after =>
      by_cases hu : u.isEnd
      · rw [(contents_cons_of_isEnd hu after).1] at ht
        cases ht
      · rw [(contents_cons_of_not_isEnd hu after).1] at ht
        exact h t ht

/-- After a program without a fault any tokens but an `else` are read as by themselves: their
statements come after those of the program, and all reports are theirs. -/
theorem program_append (hbefore : ∀ t ∈ before, ¬t.isEnd) (h : (program before).reports = [])
    (hafter : NoElse after) :
    program (before ++ after) =
      ⟨(program before).value ++ (program after).value, (program after).reports⟩ := by
  obtain ⟨ss, hss⟩ := program_reports_eq_nil_iff.mp h
  obtain ⟨hcontents, hstop⟩ := contents_append_of_not_isEnd hbefore after
  rw [program_eq_iff.mpr hss]
  rw [(contents_of_not_isEnd hbefore).1] at hss
  rw [program, hcontents, hstop]
  exact declarationsAfter_append hss hafter.contents

/-- A stray parenthesis and a missing name after a statement. Recovery from the first fault drops a
statement. -/
theorem program_append_of_faults :
    program [⟨.keyword .print_, "print", 1⟩, ⟨.keyword .nil_, "nil", 1⟩,
        ⟨.symbol .semicolon, ";", 1⟩, ⟨.symbol .rightParen, ")", 2⟩, ⟨.keyword .nil_, "nil", 2⟩,
        ⟨.symbol .semicolon, ";", 2⟩, ⟨.keyword .var_, "var", 3⟩, ⟨.symbol .semicolon, ";", 3⟩,
        ⟨.keyword .true_, "true", 4⟩, ⟨.symbol .semicolon, ";", 4⟩] =
      ⟨[.print (.literal .nil), .expression (.literal (.boolean true))],
        [.syntactic ⟨.symbol .rightParen, ")", 2⟩ .missingExpression,
          .syntactic ⟨.symbol .semicolon, ";", 3⟩ (.missingName .variable_)]⟩ := by
  let before : List Token := [⟨.keyword .print_, "print", 1⟩, ⟨.keyword .nil_, "nil", 1⟩,
    ⟨.symbol .semicolon, ";", 1⟩]
  let after : List Token := [⟨.symbol .rightParen, ")", 2⟩, ⟨.keyword .nil_, "nil", 2⟩,
    ⟨.symbol .semicolon, ";", 2⟩, ⟨.keyword .var_, "var", 3⟩, ⟨.symbol .semicolon, ";", 3⟩,
    ⟨.keyword .true_, "true", 4⟩, ⟨.symbol .semicolon, ";", 4⟩]
  have hbefore : program before = ⟨[.print (.literal .nil)], []⟩ := by cbv
  have hafter : program after = ⟨[.expression (.literal (.boolean true))],
      [.syntactic ⟨.symbol .rightParen, ")", 2⟩ .missingExpression,
        .syntactic ⟨.symbol .semicolon, ";", 3⟩ (.missingName .variable_)]⟩ := by cbv
  have hnoElse : NoElse after := by
    rintro t ⟨⟩
    decide
  have happend : program (before ++ after) = _ :=
    program_append (by decide) (congrArg Parsed.reports hbefore) hnoElse
  rw [hbefore, hafter] at happend
  exact happend

end Lox.Parsing
