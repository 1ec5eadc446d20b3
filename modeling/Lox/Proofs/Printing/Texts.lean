import Lox.Proofs.Syntax.Lines
import Lox.Proofs.Syntax.Sources

namespace Lox

open Scan Parsing

namespace Scan

variable {line : Nat} {text : List Char} {found : List Item}

theorem scans_semicolon (line : Nat) :
    Scans line [';'] ([⟨.symbol .semicolon, ";", line⟩, Token.endOfInput line].map Item.token) := by
  have hsemicolon : (munch line ';' []).item = .token ⟨.symbol .semicolon, ";", line⟩ := rfl
  rw [List.map_cons, ← hsemicolon]
  exact .item (skipTrivia_eq_self_iff.mpr (by decide)) (.done rfl)

theorem Scans.print (h : Scans line text found) :
    Scans line ("print ".toList ++ text) (.token ⟨.keyword .print_, "print", line⟩ :: found) := by
  have hblank : Scans line (' ' :: text) found :=
    .of_skipTrivia (skipTrivia_cons_blank (by decide) text) h
  have hstops : ∀ c ∈ (' ' :: text).head?, isWordPart c = false := by
    rintro c ⟨⟩
    decide
  have hparts : ['r', 'i', 'n', 't'].all isWordPart = true := rfl
  have hword : IsToken (.keyword .print_) ['p', 'r', 'i', 'n', 't'] (' ' :: text) :=
    .keyword (k := .print_) (longest_word_iff.mpr ⟨rfl, List.all_eq_true.mp hparts, hstops⟩)
  have hstarts : ¬StartsTrivia ('p' :: (['r', 'i', 'n', 't'] ++ ' ' :: text)) :=
    not_startsTrivia_cons_iff.mpr ⟨by decide, by decide, fun h => absurd h (by decide)⟩
  exact (Lexes.token (.nothing hstarts) hword hblank.lexes).scans

end Scan

/-- The text of an expression is also that of a statement that prints it. -/
theorem readProgram_print {source : String} {e : Expr Unit}
    (h : readExpression source = ⟨some e, []⟩) :
    readProgram ("print " ++ source ++ "\n;") = ⟨[.print e], []⟩ := by
  obtain ⟨ts, stop, hscans, hts⟩ := readExpression_eq_iff.mp h
  let stop' := 1 + source.toList.count '\n' + 1
  have hall := (hscans.append_tokens (scans_semicolon stop')).print
  have hprint : ReadsAsStmt
      (⟨.keyword .print_, "print", 1⟩ :: (ts ++ [⟨.symbol .semicolon, ";", stop'⟩]))
      (.statement true (.print e)) := .print rfl hts rfl
  exact readProgram_eq_iff.mpr
    ⟨_, stop', by simpa using hall, .declarations (.statement hprint) .noDeclarations⟩

end Lox
