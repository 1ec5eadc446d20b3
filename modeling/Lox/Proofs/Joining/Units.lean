import Lox.Proofs.Joining.Texts
import Lox.Proofs.Likeness.Sessions
import Lox.Proofs.Running.Readings
import Lox.Proofs.Running.SessionSoundness

/-!
Two units as one.

A text that is accepted is accepted further down as well, and a run of it ends the same. What is
accepted after another text has been run is accepted as the end of that one.
-/

namespace Lox

open Resolution

/-- What becomes of a token if the later text is moved that many lines down. -/
def Token.Lowers (earlier later : Token → Prop) (lines : Nat) (t t' : Token) : Prop :=
  (earlier t ∧ t' = t) ∨ (later t ∧ t' = t.later lines)

section

variable {earlier later : Token → Prop} {lines : Nat} {t t' : Token}

theorem Token.Lowers.kind_eq (h : t.Lowers earlier later lines t') : t'.kind = t.kind := by
  rcases h with ⟨-, rfl⟩ | ⟨-, rfl⟩ <;> rfl

theorem Token.Lowers.lexeme_eq (h : t.Lowers earlier later lines t') : t'.lexeme = t.lexeme := by
  rcases h with ⟨-, rfl⟩ | ⟨-, rfl⟩ <;> rfl

end

/-- Programs of which the later one is moved that many lines down. -/
def Correspondence.ofLowered (hops : Hops) (earlier later : Token → Prop) (lines : Nat) :
    Correspondence where
  old := ""
  new := ""
  hops node := hops[node]?
  known _ := True
  token := Token.Lowers earlier later lines
  kind_eq h := h.kind_eq
  lexeme_eq h := h.lexeme_eq
  this_ne_old h := absurd rfl h
  this_ne_new h := absurd rfl h

theorem Correspondence.Sends.alike {C : Correspondence} {f : Token → Token}
    {program : List (Stmt NodeId)} (h : C.Sends f (.ofProgram program))
    (horderly : Stmt.orderlyAll program) :
    Stmt.AlikeAll C.likeness [] program (Stmt.respellAll (.everywhere f) 0 program) := by
  refine Stmt.alikeAll_respell (h.allows 0) (Γ := []) (d := 0) rfl program
    ⟨fun _ hsite => hsite, fun _ ht => ht⟩ horderly fun t ht => ?_
  have htoken := h.token t (Stmt.titles_subset ht)
  exact ⟨htoken, Correspondence.spelled_false_iff.mpr (C.lexeme_eq htoken)⟩

namespace Session

variable {history : List (Session × Step)} {s s' first s'' : Session} {source more : String}
  {program program' : List (Stmt NodeId)}

theorem Reads.lowered (h : s.Reads source program) (lines : Nat) :
    s.Reads (lowered lines source) (Stmt.laterAll lines program) := by
  obtain ⟨tree, hread, rfl⟩ := h
  have horderly := (Stmt.orderlyAll_numbered s.nextNode tree).trans
    (orderlyAll_of_readProgram hread)
  obtain ⟨tree', htree, hnumbered⟩ := Stmt.of_alike_numberedList s.nextNode tree
    (Stmt.alikeAll_everywhere (Token.later lines) horderly)
  exact ⟨tree', readProgram_lowered hread htree, congrArg Prod.fst hnumbered⟩

/-- A program may be further down. Each run of it gives the same answer there, but for the lines of
its own tokens, and writes and declares the same. -/
theorem run_lowered (hs : Sound history s) (hunit : s.unit? source = some (program, s'))
    (lines : Nat) :
    ∃ s'', s.unit? (lowered lines source) = some (Stmt.laterAll lines program, s'') ∧
      ∀ fuel,
        Answer.Alike (Token.Lowers (setting history).token (· ∈ Scan.tokens source) lines)
            (s.run fuel source).1 (s.run fuel (lowered lines source)).1 ∧
          (s.run fuel (lowered lines source)).2.output = (s.run fuel source).2.output ∧
          (s.run fuel (lowered lines source)).2.globalNames =
            (s.run fuel source).2.globalNames := by
  have hready := fun fuel => (hs.start_run hunit fuel).2
  obtain ⟨hcurrent, hadmits, horderly⟩ := (hready 0).task
  have hfits := hs.fits_of_unit? hunit
  have hread := reads_of_unit? hunit
  let C : Correspondence := .ofLowered s'.machine.hops (setting history).token
    (· ∈ Scan.tokens source) lines
  have hkeeps : C.Keeps (setting history) :=
    ⟨fun _ _ => trivial, hfits.hops, fun t ht => .inl ⟨ht, rfl⟩⟩
  have hsends : C.Sends (Token.later lines) (.ofProgram program) :=
    ⟨fun _ _ => trivial, fun site hsite => (hready 0).fits.hops site (hadmits.sites site hsite),
      fun t ht => .inr ⟨tokens_of_reads hread ht, rfl⟩⟩
  have halike := hsends.alike horderly
  obtain ⟨s'', hunit', hmachine⟩ := unit?_of_reads hunit (hread.lowered lines)
    fun globals hglobals =>
      C.resolve_alike halike hsends.hops (fun _ _ hne => absurd rfl hne) horderly hglobals
  refine ⟨s'', hunit', fun fuel => ?_⟩
  have hends := Correspondence.interpret_alike (hfits.matches hkeeps fun _ _ => ⟨rfl, rfl⟩) hcurrent
    halike (hready fuel).sure
  obtain ⟨hanswers, hrest⟩ := conclude_alike hends s' s''
  rw [run_of_unit? hunit, run_of_unit? hunit', hmachine]
  exact ⟨hanswers, hrest fun _ => hmachine⟩

/-- A text is accepted after another one, on its own lines, if it is accepted by itself where no
more names are known than that one declares. -/
theorem unit?_append (h : s.unit? source = some (program, s'))
    (hnode : first.nextNode = s'.nextNode)
    (hmore : first.unit? (lowered (linesOf source) more) = some (program', s''))
    (hglobals : first.machine.globalNames ⊆
      (program.flatMap Stmt.declared).map Token.lexeme ++ s.machine.globalNames) :
    ∃ joined, s.unit? (source ++ "\n" ++ more) = some (program ++ program', joined) := by
  obtain ⟨tree, hread, rfl, hreports, rfl⟩ := unit?_eq_some_iff.mp h
  obtain ⟨tree', hread', rfl, hreports', -⟩ := unit?_eq_some_iff.mp hmore
  refine ⟨_, unit?_eq_some_iff.mpr ⟨tree ++ tree', readProgram_append hread hread', ?_,
    reports_append hreports (reports_mono hglobals hreports'), rfl⟩⟩
  rw [number, number, number, hnode]
  exact congrArg Prod.fst (Stmt.numberedList_append s.nextNode tree tree').symm

end Session

end Lox
