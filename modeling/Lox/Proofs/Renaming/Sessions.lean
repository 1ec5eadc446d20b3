import Lox.Proofs.Likeness.Numbering
import Lox.Proofs.Likeness.Sessions
import Lox.Proofs.Renaming.Locals
import Lox.Proofs.Renaming.Texts
import Lox.Proofs.Running.Readings
import Lox.Proofs.Scoping.Binders

/-!
A local variable may have any name.

A unit with a new name for one of its variables or parameters is accepted as the old one is, with
the same distances, and each run of it writes and answers the same.
-/

namespace Lox

open Scan Scoping

section

variable {hops : Hops} {old new : String}

theorem Stmt.HasVariable.exists_binder {body : List (Stmt NodeId)} (h : HasVariable old body) :
    ∃ t ∈ bindersAll body, t.lexeme = old := by
  obtain ⟨t, initial, hmem, hname⟩ := h
  exact ⟨t, Stmt.bindersAll_eq body ▸ List.mem_flatMap.mpr ⟨_, hmem, List.mem_singleton_self t⟩,
    hname⟩

theorem FunctionDecl.HasLocal.exists_binder {d : FunctionDecl NodeId} (h : d.HasLocal old) :
    ∃ t ∈ d.binders, t.lexeme = old := by
  obtain ⟨name, params, body⟩ := d
  rcases h with ⟨t, ht, hname⟩ | h
  · exact ⟨t, List.mem_append_left _ ht, hname⟩
  · obtain ⟨t, ht, hname⟩ := h.exists_binder
    exact ⟨t, List.mem_append_right _ ht, hname⟩

theorem Stmt.Renames.exists_binder {s s' : Stmt NodeId} (h : s.Renames hops old new s') :
    ∃ t ∈ s.binders, t.lexeme = old := by
  induction h with
  | block h => exact h.exists_binder
  | function h => exact h.exists_binder
  | method h =>
      obtain ⟨t, ht, hname⟩ := h.exists_binder
      refine ⟨t, ?_, hname⟩
      simp only [Stmt.binders, FunctionDecl.bindersAll_eq, List.flatMap_append, List.flatMap_cons,
        List.mem_append]
      exact .inr (.inl ht)
  | inBlock _ ih =>
      obtain ⟨t, ht, hname⟩ := ih
      refine ⟨t, ?_, hname⟩
      simp only [Stmt.binders, Stmt.bindersAll_eq, List.flatMap_append, List.flatMap_cons,
        List.mem_append]
      exact .inr (.inl ht)
  | @inConsequent _ _ _ alternative _ ih =>
      obtain ⟨t, ht, hname⟩ := ih
      refine ⟨t, ?_, hname⟩
      cases alternative with
      | none => exact ht
      | some alternative => exact List.mem_append_left _ ht
  | inAlternative _ ih =>
      obtain ⟨t, ht, hname⟩ := ih
      exact ⟨t, List.mem_append_right _ ht, hname⟩
  | inLoop _ ih => exact ih
  | inFunction _ ih =>
      obtain ⟨t, ht, hname⟩ := ih
      refine ⟨t, ?_, hname⟩
      simp only [Stmt.binders, FunctionDecl.binders, Stmt.bindersAll_eq, List.flatMap_append,
        List.flatMap_cons, List.mem_append]
      exact .inr (.inr (.inl ht))
  | inMethod _ ih =>
      obtain ⟨t, ht, hname⟩ := ih
      refine ⟨t, ?_, hname⟩
      simp only [Stmt.binders, FunctionDecl.bindersAll_eq, FunctionDecl.binders,
        Stmt.bindersAll_eq, List.flatMap_append, List.flatMap_cons, List.mem_append]
      exact .inr (.inl (.inr (.inr (.inl ht))))

theorem Stmt.RenamesIn.exists_binder {program program' : List (Stmt NodeId)}
    (h : RenamesIn hops old new program program') : ∃ t ∈ bindersAll program, t.lexeme = old := by
  obtain ⟨before, s, s', after, rfl, -, h⟩ := h
  obtain ⟨t, ht, hname⟩ := h.exists_binder
  refine ⟨t, ?_, hname⟩
  simp only [Stmt.bindersAll_eq, List.flatMap_append, List.flatMap_cons, List.mem_append]
  exact .inr (.inl ht)

end

section

variable {hops : Hops} {known : NodeId → Prop} {old new : String} {W : Setting}

theorem getElem?_marks {d n distance : Nat} (h : distance < n + 1 + d) :
    (List.replicate d false ++ true :: List.replicate n false)[distance]? =
      some (decide (distance = d)) := by
  rcases Nat.lt_trichotomy distance d with hlt | rfl | hgt
  · rw [List.getElem?_append_left (by simpa using hlt), List.getElem?_replicate, if_pos hlt,
      decide_eq_false (Nat.ne_of_lt hlt)]
  · rw [List.getElem?_append_right (by simp)]
    simp
  · obtain ⟨k, rfl⟩ := Nat.exists_eq_add_of_lt hgt
    rw [List.getElem?_append_right (by simp; omega), List.length_replicate,
      show d + k + 1 - d = k + 1 by omega, List.getElem?_cons_succ, List.getElem?_replicate,
      if_pos (by omega), decide_eq_false (by omega)]

namespace Correspondence

variable {hold : old ≠ Resolution.thisName} {hnew : new ≠ Resolution.thisName}

theorem spelled_own (mark : Bool) {t : Token} (hfresh : t.lexeme ≠ new) :
    (ofNewName hops known old new hold hnew).Spelled mark t.lexeme
      (if mark ∧ t.lexeme = old then { t with lexeme := new } else t).lexeme := by
  unfold Spelled ofNewName
  split
  · rfl
  · exact ⟨rfl, fun _ => hfresh⟩

theorem Keeps.allowsRenaming (h : (ofNewName hops known old new hold hnew).Keeps W)
    (hfresh : ∀ t, W.token t → t.lexeme ≠ new) :
    (ofNewName hops known old new hold hnew).likeness.AllowsRenaming hops old new W := by
  refine ⟨h.likeness, fun n => ⟨fun _ => rfl, fun _ _ => rfl, ?_, ?_, ?_⟩, ?_⟩
  · intro site d hsite hname hframes
    refine ⟨h.known site hsite, fun hnone => ?_, fun distance hdistance => ?_⟩
    · replace hnone : hops[site.node]? = none := hnone
      exact if_neg (by simp [hnone])
    · have hlt := Site.distance?_lt ((h.hops site hsite).symm.trans hdistance)
      rw [hframes] at hlt
      replace hdistance : hops[site.node]? = some distance := hdistance
      refine ⟨_, getElem?_marks hlt, ?_⟩
      have hreference : (Respelling.renaming hops old new).reference d site.node site.name =
          if decide (distance = d) ∧ site.name.lexeme = old then { site.name with lexeme := new }
          else site.name := by
        simp [Respelling.renaming, hdistance, and_comm]
      rw [hreference]
      exact spelled_own _ (hfresh _ hname)
  · intro t d ht
    cases d with
    | zero =>
        have hbinder : (Respelling.renaming hops old new).binder 0 t =
            if (true : Bool) ∧ t.lexeme = old then { t with lexeme := new } else t := by
          simp [Respelling.renaming]
        rw [hbinder]
        exact spelled_own true (hfresh t ht)
    | succ d => exact spelled_false_iff.mpr rfl
  · intro t d ht hpos
    obtain ⟨d, rfl⟩ := Nat.exists_eq_succ_of_ne_zero (Nat.ne_of_gt hpos)
    exact ⟨rfl, spelled_false_iff.mpr rfl⟩
  · intro t n ht hne
    refine ⟨rfl, ?_⟩
    rw [List.headD_cons, Spelled, if_neg fun hall => hne hall.2]
    exact ⟨rfl, fun _ => hfresh t ht⟩

end Correspondence

/-- Where the old name is that of identifiers only, the new one can be spelled in its place. -/
theorem Token.Respells.allowsRenaming
    (hkind : ∀ t, W.token t → t.lexeme = old → t.kind = .identifier) :
    (Likeness.ofTokens (Token.Respells new)).AllowsRenaming hops old new W := by
  have hrefl : ∀ t, Token.Respells new t t := fun t => .inl rfl
  have hsame : (Likeness.ofTokens (Token.Respells new)).Keeps W :=
    ⟨fun _ => ⟨fun _ => rfl, fun t _ => hrefl t, fun _ _ _ _ _ => hrefl _, fun t _ _ => hrefl t,
      fun t _ _ _ => hrefl t⟩, fun t _ _ => hrefl t⟩
  refine ⟨hsame, fun n => ⟨fun _ => rfl, fun t _ => hrefl t, ?_, ?_, fun t _ _ _ => hrefl t⟩,
    fun t _ _ _ => hrefl t⟩
  · intro site d _ hname _
    dsimp only [Likeness.ofTokens, Respelling.renaming]
    split
    · rename_i hrenamed
      exact .inr ⟨hkind _ hname hrenamed.1, rfl⟩
    · exact hrefl _
  · intro t d ht
    dsimp only [Likeness.ofTokens, Respelling.renaming]
    split
    · rename_i hrenamed
      exact .inr ⟨hkind _ ht hrenamed.2, rfl⟩
    · exact hrefl _

end

/-- The correspondence of a program with the same one under a new name, in a run of it. -/
def Setting.correspondence (W : Setting) (m : Machine) {old new : String}
    (hold : old ≠ Resolution.thisName) (hnew : new ≠ Resolution.thisName) : Correspondence :=
  .ofNewName m.hops (fun node => ∃ site, W.site site ∧ site.node = node) old new hold hnew

section

variable {W : Setting} {m : Machine} {old new : String} {fuel : Nat}
  {program program' : List (Stmt NodeId)} {globals : List String}

theorem Setting.Fits.keeps (h : W.Fits m) (hold : old ≠ Resolution.thisName)
    (hnew : new ≠ Resolution.thisName) : (W.correspondence m hold hnew).Keeps W :=
  Correspondence.ofNewName_keeps h.hops

theorem Setting.Ready.renamed_alike (h : W.Ready [] ⟨fuel, .executeAll program, m⟩)
    (hold : old ≠ Resolution.thisName) (hnew : new ≠ Resolution.thisName)
    (hrenames : Stmt.RenamesIn m.hops old new program program')
    (hfresh : ∀ t ∈ Stmt.tokensAll program, t.lexeme ≠ new)
    (hreports : (Resolution.resolve globals program).reports = []) :
    Stmt.AlikeAll (W.correspondence m hold hnew).likeness [] program program' := by
  obtain ⟨-, hadmits, horderly⟩ := h.task
  have hfits := h.fits.keeps hold hnew
  have hkeeps : (W.correspondence m hold hnew).Keeps (.ofProgram program) :=
    ⟨fun site hsite => hfits.known site (hadmits.sites site hsite),
      fun site hsite => hfits.hops site (hadmits.sites site hsite), fun _ _ => rfl⟩
  exact hrenames.alike (hkeeps.allowsRenaming hfresh) ⟨fun _ h => h, fun _ h => h⟩ horderly
    (quiet_of_resolve hreports)

end

namespace Session

variable {clock : Nat → Float} {history : List (Session × Step)} {s s' : Session}
  {source source' : String} {program program' : List (Stmt NodeId)} {old new : String}

theorem binders_of_reads (h : s.Reads source program) :
    ∀ t ∈ Stmt.bindersAll program, t.kind = .identifier := by
  obtain ⟨tree, hread, rfl⟩ := h
  obtain ⟨ts, stop, -, hts⟩ := readProgram_eq_iff.mp hread
  intro t ht
  have ht : t ∈ Stmt.bindersAll tree := by
    rw [← Stmt.bindersAll_numbered s.nextNode tree]
    exact ht
  exact hts.binders ht

theorem respells_keepsKinds (new : String) : KeepsKinds (Token.Respells new) := by
  refine ⟨?_, fun t => ⟨t, .inl rfl⟩⟩
  rintro t _ (rfl | ⟨-, rfl⟩)
  · rfl
  · rfl

/-- A program that differs in the spelling of identifiers has a text that differs in them. -/
theorem exists_text (hnew : IsIdentifier new) (h : s.Reads source program)
    (halike : Stmt.AlikeAll (.ofTokens (Token.Respells new)) [] program program') :
    ∃ source', List.Forall₂ (Token.Respells new) (Scan.tokens source) (Scan.tokens source') ∧
      s.Reads source' program' := by
  obtain ⟨tree, hread, rfl⟩ := h
  obtain ⟨ts, stop, hscans, hts⟩ := readProgram_eq_iff.mp hread
  obtain ⟨tree', htree, hnumbered⟩ := Stmt.of_alike_numberedList s.nextNode tree halike
  obtain ⟨ts', hts', hrespells⟩ := hts.of_alike (respells_keepsKinds new) (.declarations htree)
  have hall : List.Forall₂ (Token.Respells new) (ts ++ [.endOfInput stop])
      (ts' ++ [.endOfInput stop]) := List.rel_append hrespells (.cons (.inl rfl) .nil)
  obtain ⟨text', hscans', -⟩ := hscans.respelled hnew rfl hall
  have hscans' : Scans 1 (String.ofList text').toList
      ((ts' ++ [Token.endOfInput stop]).map Item.token) := by
    rwa [String.toList_ofList]
  refine ⟨String.ofList text', ?_, tree', readProgram_eq_iff.mpr ⟨ts', stop, hscans', hts'⟩,
    congrArg Prod.fst hnumbered⟩
  rw [tokens_eq hscans, tokens_eq hscans']
  exact hall

theorem isIdentifier_ne_this {name : String} (h : IsIdentifier name) :
    name ≠ Resolution.thisName := by
  rintro rfl
  exact absurd h.2 (by decide)

theorem isIdentifier_old (hread : s.Reads source program) {hops : Hops}
    (hrenames : Stmt.RenamesIn hops old new program program') : IsIdentifier old := by
  obtain ⟨t, ht, rfl⟩ := hrenames.exists_binder
  exact (kind_eq_identifier_iff (tokens_of_reads hread (Stmt.bindersAll_subset program ht))).mp
    (binders_of_reads hread t ht)

/-- A local variable or parameter may have any name that its unit does not use. With the new name
for its declaration and for the references bound to its frame, the unit still has a text; every such
text is accepted with the same distances; and however much work is allowed, its run gives the same
answer and writes the same as the run with the old name. -/
theorem run_of_renamesIn (hs : Reached clock history s)
    (hunit : s.unit? source = some (program, s'))
    (hrenames : Stmt.RenamesIn s'.machine.hops old new program program')
    (hnew : IsIdentifier new) (hfresh : ∀ t ∈ Scan.tokens source, t.lexeme ≠ new) :
    (∃ source', List.Forall₂ (Token.Respells new) (Scan.tokens source) (Scan.tokens source') ∧
        s.Reads source' program') ∧
      ∀ source', s.Reads source' program' →
        ∃ s'', s.unit? source' = some (program', s'') ∧ s''.machine = s'.machine ∧
          ∀ fuel, (s.run fuel source').1 = (s.run fuel source).1 ∧
            (s.run fuel source').2.output = (s.run fuel source).2.output := by
  have hread := reads_of_unit? hunit
  have htokens := tokens_of_reads hread
  have hold := isIdentifier_old hread hrenames
  obtain ⟨tree, -, hprogram, hreports, -⟩ := unit?_eq_some_iff.mp hunit
  have hready := fun fuel => (hs.sound.start_run hunit fuel).2
  obtain ⟨hcurrent, hadmits, horderly⟩ := (hready 0).task
  have hfresh' : ∀ t ∈ Stmt.tokensAll program, t.lexeme ≠ new := fun t ht => hfresh t (htokens ht)
  constructor
  · have hkind : ∀ t, (Setting.ofProgram program).token t → t.lexeme = old →
        t.kind = .identifier := fun t ht hlexeme =>
      (kind_eq_identifier_iff (htokens ht)).mpr (hlexeme ▸ hold)
    exact exists_text hnew hread (hrenames.alike (Token.Respells.allowsRenaming hkind)
      ⟨fun _ h => h, fun _ h => h⟩ horderly (quiet_of_resolve hreports))
  · intro source' hread'
    have hold := isIdentifier_ne_this hold
    have hnew := isIdentifier_ne_this hnew
    have halike := fun fuel => (hready fuel).renamed_alike hold hnew hrenames hfresh' hreports
    obtain ⟨s'', hunit', hmachine⟩ := unit?_of_reads hunit hread' fun globals hglobals =>
      Correspondence.resolve_alike (halike 0)
        (fun site hsite => (hready 0).fits.hops site (hadmits.sites site hsite))
        (fun t ht _ => hfresh' t ht) horderly hglobals
    refine ⟨s'', hunit', hmachine, fun fuel => ?_⟩
    have hmatches : Correspondence.Matches _ _ s'.machine s'.machine :=
      (hready fuel).fits.matches ((hready fuel).fits.keeps hold hnew) fun _ _ => ⟨rfl, rfl⟩
    have hends := Correspondence.interpret_alike hmatches hcurrent (halike fuel) (hready fuel).sure
    rw [run_of_unit? hunit, run_of_unit? hunit', hmachine]
    obtain ⟨hanswers, hrest⟩ := conclude_alike hends s' s''
    exact ⟨hanswers.eq fun _ _ h => h, (hrest fun _ => hmachine).1⟩

/-- The outer one of two variables of one name gets another. -/
theorem run_of_renamesIn_of_outer :
    ∃ s'', (Session.new fun _ => 0).unit? "\x7bvar b;\x7bvar a;print a;\x7dprint b;\x7d" =
        some ([.block [.var ⟨.identifier, "b", 1⟩ none,
          .block [.var ⟨.identifier, "a", 1⟩ none, .print (.var 0 ⟨.identifier, "a", 1⟩)],
          .print (.var 1 ⟨.identifier, "b", 1⟩)]], s'') ∧
      ∀ fuel,
        ((Session.new fun _ => 0).run fuel "\x7bvar b;\x7bvar a;print a;\x7dprint b;\x7d").1 =
          ((Session.new fun _ => 0).run fuel "\x7bvar a;\x7bvar a;print a;\x7dprint a;\x7d").1 := by
  let block {Label : Type} (inner outer : Label) (name : String) : Stmt Label :=
    .block [.var ⟨.identifier, name, 1⟩ none,
      .block [.var ⟨.identifier, "a", 1⟩ none, .print (.var inner ⟨.identifier, "a", 1⟩)],
      .print (.var outer ⟨.identifier, name, 1⟩)]
  let s' : Session :=
    ⟨{ Machine.new (fun _ => 0) with hops := ((∅ : Hops).insert 0 0).insert 1 0 }, 2⟩
  have hunit : (Session.new fun _ => 0).unit? "\x7bvar a;\x7bvar a;print a;\x7dprint a;\x7d" =
      some ([block 0 1 "a"], s') := by
    refine unit?_eq_some_iff.mpr ⟨[block () () "a"], ?_, rfl, rfl, rfl⟩
    cbv
  have hrenames : Stmt.RenamesIn s'.machine.hops "a" "b" [block 0 1 "a"] [block 0 1 "b"] := by
    refine ⟨[], _, _, [], rfl, rfl, ?_⟩
    have hblock : Stmt.Renames s'.machine.hops "a" "b" (block 0 1 "a")
        (.block (Stmt.respellAll (.renaming s'.machine.hops "a" "b") 0 _)) :=
      .block ⟨_, none, List.mem_cons_self, rfl⟩
    have hinner : s'.machine.hops[0]? = some 0 := rfl
    have houter : s'.machine.hops[1]? = some 0 := rfl
    simpa [Stmt.respellAll, Stmt.respell, Expr.respell, Expr.respellOption, Respelling.renaming,
      hinner, houter, block] using hblock
  have hnew : IsIdentifier "b" := ⟨⟨'b', [], by decide, by decide, by simp⟩, by decide⟩
  have hfresh : ∀ t ∈ Scan.tokens "\x7bvar a;\x7bvar a;print a;\x7dprint a;\x7d",
      t.lexeme ≠ "b" := by
    have hall : (Scan.tokens "\x7bvar a;\x7bvar a;print a;\x7dprint a;\x7d").all
        (fun t => t.lexeme ≠ "b") = true := by cbv
    simpa using hall
  have hread : (Session.new fun _ => 0).Reads "\x7bvar b;\x7bvar a;print a;\x7dprint b;\x7d"
      [block 0 1 "b"] := by
    refine ⟨[block () () "b"], ?_, rfl⟩
    cbv
  obtain ⟨-, hall⟩ := run_of_renamesIn .new hunit hrenames hnew hfresh
  obtain ⟨s'', hunit', -, hrun⟩ := hall _ hread
  exact ⟨s'', hunit', fun fuel => (hrun fuel).1⟩

end Session

end Lox
