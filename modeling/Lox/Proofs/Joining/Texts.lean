import Lox.Proofs.Likeness.Starts
import Lox.Proofs.Relining.Trees
import Lox.Proofs.Scoping.Units
import Lox.Proofs.Syntax.Lines
import Lox.Proofs.Syntax.Sources

namespace Lox

open Scan Parsing

namespace Scan

variable {line : Nat} {text : List Char} {found : List Item}

theorem scans_cons_break_iff :
    Scans line ('\n' :: text) found ↔ Scans (line + 1) text found :=
  ⟨.of_skipTrivia (skipTrivia_cons_break line text).symm,
    .of_skipTrivia (skipTrivia_cons_break line text)⟩

end Scan

/-- The text that many lines further down. -/
def lowered (lines : Nat) (source : String) : String :=
  String.ofList (List.replicate lines '\n' ++ source.toList)

theorem Scan.scans_lowered_iff {line lines : Nat} {source : String} {found : List Item} :
    Scans line (lowered lines source).toList found ↔
      Scans (line + lines) source.toList found := by
  rw [lowered, String.toList_ofList]
  induction lines generalizing line with
  | zero => rfl
  | succ lines ih =>
      rw [List.replicate_succ, List.cons_append, scans_cons_break_iff, ih, Nat.add_assoc,
        Nat.add_comm 1]

theorem Parsing.ReadsAsStmt.append {ts us : List Token} {before after : List (Stmt Unit)}
    (h : ReadsAsStmt ts (.declarations before)) (h' : ReadsAsStmt us (.declarations after)) :
    ReadsAsStmt (ts ++ us) (.declarations (before ++ after)) := by
  induction before generalizing ts with
  | nil =>
      cases h
      exact h'
  | cons s before ih =>
      cases h with
      | declarations hs hss =>
          rw [List.append_assoc]
          exact .declarations hs (ih hss)

/-- A program that many lines further down. -/
def Stmt.laterAll {Label : Type} (lines : Nat) (program : List (Stmt Label)) : List (Stmt Label) :=
  Stmt.respellAll (.everywhere (Token.later lines)) 0 program

/-- The lines of a text and the line break after it. -/
def linesOf (source : String) : Nat := source.toList.count '\n' + 1

theorem readProgram_lowered {lines : Nat} {source : String} {tree tree' : List (Stmt Unit)}
    (h : readProgram source = ⟨tree, []⟩)
    (htree : Stmt.AlikeAll (.ofTokens fun t t' => t' = t.later lines) [] tree tree') :
    readProgram (lowered lines source) = ⟨tree', []⟩ := by
  obtain ⟨ts, stop, hscans, hts⟩ := readProgram_eq_iff.mp h
  have hkinds : KeepsKinds fun t t' => t' = t.later lines := keepsKinds_map fun _ => rfl
  obtain ⟨ts', hts', hlater⟩ := hts.of_alike hkinds (.declarations htree)
  have hlexes := hscans.lexes.later lines
  have hitems : ((ts ++ [Token.endOfInput stop]).map Item.token).map (Item.later lines) =
      (ts' ++ [Token.endOfInput (stop + lines)]).map Item.token := by
    simp only [eq_map_of_forall₂ hlater, List.map_append, List.map_map]
    rfl
  rw [hitems] at hlexes
  exact readProgram_eq_iff.mpr ⟨ts', stop + lines, scans_lowered_iff.mpr hlexes.scans, hts'⟩

/-- Two texts that are read without a report, the second one below the first, are so as one. -/
theorem readProgram_append {source more : String} {before after : List (Stmt Unit)}
    (h : readProgram source = ⟨before, []⟩)
    (hmore : readProgram (lowered (linesOf source) more) = ⟨after, []⟩) :
    readProgram (source ++ "\n" ++ more) = ⟨before ++ after, []⟩ := by
  obtain ⟨ts, stop, hscans, hts⟩ := readProgram_eq_iff.mp h
  obtain ⟨us, stop', hscans', hus⟩ := readProgram_eq_iff.mp hmore
  rw [scans_lowered_iff, linesOf, ← Nat.add_assoc] at hscans'
  have hall := hscans.append_tokens hscans'
  rw [← List.map_append, ← List.append_assoc] at hall
  exact readProgram_eq_iff.mpr ⟨ts ++ us, stop', by simpa using hall, hts.append hus⟩

end Lox
