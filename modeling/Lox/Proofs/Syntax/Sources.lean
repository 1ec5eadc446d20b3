import Lox.Proofs.Syntax.Lexemes
import Lox.Proofs.Syntax.Program
import Lox.Session

namespace Lox

open Scan Parsing

namespace Scan

variable {found : List Item}

theorem eq_map_token (h : found.filterMap Item.diagnostic? = []) :
    found = (found.filterMap Item.token?).map Item.token := by
  induction found with
  | nil => rfl
  | cons i found ih =>
      cases i with
      | token t => exact congrArg _ (ih h)
      | fault => cases h

theorem filterMap_map_token (ts : List Token) :
    (ts.map Item.token).filterMap Item.token? = ts ∧
      (ts.map Item.token).filterMap Item.diagnostic? = [] := by
  rw [List.filterMap_map, List.filterMap_map]
  exact ⟨List.filterMap_some, List.filterMap_eq_nil_iff.mpr fun _ _ => rfl⟩

/-- A text that is not at fault consists of tokens, of which the last is the end of the input. -/
theorem exists_items_eq {source : String}
    (h : (items source).filterMap Item.diagnostic? = []) :
    ∃ ts stop, items source = (ts ++ [Token.endOfInput stop]).map Item.token := by
  obtain ⟨before, stop, hbefore, -⟩ := (scans_items source).lexes.ends
  have hitems := eq_map_token h
  rw [hbefore, List.filterMap_append] at hitems
  exact ⟨before.filterMap Item.token?, stop, by rw [hbefore]; exact hitems⟩

theorem contents_of_items {source : String} {ts : List Token} {stop : Nat}
    (h : items source = (ts ++ [Token.endOfInput stop]).map Item.token) :
    contents ((items source).filterMap Item.token?) = ts := by
  obtain ⟨before, stop', hbefore, hends⟩ := (scans_items source).lexes.ends
  have hsame : before = ts.map Item.token := by
    rw [h, List.map_append] at hbefore
    exact (List.append_inj_left' hbefore rfl).symm
  rw [h, (filterMap_map_token _).1]
  exact contents_append (fun t ht => hends t (hsame ▸ List.mem_map_of_mem ht)) rfl

theorem tokens_eq {source : String} {ts : List Token} {stop : Nat}
    (h : Scans 1 source.toList ((ts ++ [Token.endOfInput stop]).map Item.token)) :
    tokens source = ts ++ [.endOfInput stop] := by
  rw [tokens, items_eq_iff.mpr h, (filterMap_map_token _).1]

end Scan

/-- A text is read without a report if its tokens stand for declarations. -/
theorem readProgram_eq_iff {source : String} {tree : List (Stmt Unit)} :
    readProgram source = ⟨tree, []⟩ ↔
      ∃ ts stop, Scans 1 source.toList ((ts ++ [Token.endOfInput stop]).map Item.token) ∧
        ReadsAsStmt ts (.declarations tree) := by
  constructor
  · intro h
    have hreports := congrArg Parsed.reports h
    have hvalue := congrArg Parsed.value h
    simp only [readProgram, List.append_eq_nil_iff] at hreports hvalue
    obtain ⟨ts, stop, hitems⟩ := exists_items_eq hreports.1
    have hprogram : program ((items source).filterMap Item.token?) = ⟨tree, []⟩ := by
      rw [← hvalue, ← hreports.2]
    rw [program_eq_iff, contents_of_items hitems] at hprogram
    exact ⟨ts, stop, hitems ▸ scans_items source, hprogram⟩
  · rintro ⟨ts, stop, hscans, hts⟩
    have hitems := items_eq_iff.mpr hscans
    have hprogram := program_eq_iff.mpr ((contents_of_items hitems).symm ▸ hts)
    rw [readProgram, hprogram]
    dsimp only
    rw [List.append_nil, hitems, (filterMap_map_token _).2]

/-- A text is read as a single expression without a report if its tokens stand for that. -/
theorem readExpression_eq_iff {source : String} {e : Expr Unit} :
    readExpression source = ⟨some e, []⟩ ↔
      ∃ ts stop, Scans 1 source.toList ((ts ++ [Token.endOfInput stop]).map Item.token) ∧
        ReadsAs ts (.expression e) := by
  constructor
  · intro h
    have hreports := congrArg Parsed.reports h
    have hvalue := congrArg Parsed.value h
    simp only [readExpression, List.append_eq_nil_iff] at hreports hvalue
    obtain ⟨ts, stop, hitems⟩ := exists_items_eq hreports.1
    have hsingle : singleExpression ((items source).filterMap Item.token?) = ⟨some e, []⟩ := by
      rw [← hvalue, ← hreports.2]
    rw [singleExpression_eq_iff, contents_of_items hitems] at hsingle
    exact ⟨ts, stop, hitems ▸ scans_items source, hsingle⟩
  · rintro ⟨ts, stop, hscans, hts⟩
    have hitems := items_eq_iff.mpr hscans
    have hsingle := singleExpression_eq_iff.mpr ((contents_of_items hitems).symm ▸ hts)
    rw [readExpression, hsingle]
    dsimp only
    rw [List.append_nil, hitems, (filterMap_map_token _).2]

end Lox
