import Lox.Proofs.Running.Sessions
import Lox.Proofs.Scoping.Tokens
import Lox.Proofs.Syntax.Sources

namespace Lox.Session

open Scan

/-- The text is one of this program, whether or not the program keeps to the rules of scopes. -/
def Reads (s : Session) (source : String) (program : List (Stmt NodeId)) : Prop :=
  ∃ tree, readProgram source = ⟨tree, []⟩ ∧ (s.number tree).1 = program

variable {s s' : Session} {source source' : String} {program program' : List (Stmt NodeId)}

theorem tokens_of_reads (h : s.Reads source program) :
    Stmt.tokensAll program ⊆ Scan.tokens source := by
  obtain ⟨tree, hread, rfl⟩ := h
  obtain ⟨ts, stop, hscans, hts⟩ := readProgram_eq_iff.mp hread
  rw [Scan.tokens_eq hscans]
  refine List.subset_append_of_subset_left _ ?_
  exact (Stmt.tokensAll_numbered s.nextNode tree).symm ▸ hts.tokens_subset

theorem reads_of_unit? (h : s.unit? source = some (program, s')) : s.Reads source program := by
  obtain ⟨tree, hread, rfl, -⟩ := unit?_eq_some_iff.mp h
  exact ⟨tree, hread, rfl⟩

/-- A text is accepted with the same distances if its program is resolved to the same. -/
theorem unit?_of_reads (hunit : s.unit? source = some (program, s'))
    (hread : s.Reads source' program')
    (hresolve : ∀ globals, (Resolution.resolve globals program).reports = [] →
      Resolution.resolve globals program' = Resolution.resolve globals program) :
    ∃ s'', s.unit? source' = some (program', s'') ∧ s''.machine = s'.machine := by
  obtain ⟨tree, hread₀, rfl, hreports, rfl⟩ := unit?_eq_some_iff.mp hunit
  obtain ⟨tree', hread', rfl⟩ := hread
  have hsame : (s.number tree').2.resolve (s.number tree').1 =
      (s.number tree).2.resolve (s.number tree).1 := hresolve _ hreports
  refine ⟨_, unit?_eq_some_iff.mpr ⟨tree', hread', rfl, ?_, rfl⟩, ?_⟩
  · rw [hsame, hreports]
  · rw [hsame]
    rfl

end Lox.Session
