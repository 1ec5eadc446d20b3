import Lox.Proofs.Running.Sessions
import Lox.Proofs.Running.Soundness
import Lox.Proofs.Scoping.Orderly
import Lox.Proofs.Scoping.Table
import Lox.Proofs.Syntax.Program
import Mathlib.Data.List.Nodup

namespace Lox

open Scoping

/-- The references of the text that a step begins with. -/
def Task.sites : Task → List Site
  | .evaluate e => e.sites []
  | .executeAll ss => Stmt.sitesAll [] ss
  | _ => []

def Task.tokens : Task → List Token
  | .evaluate e => e.tokens
  | .executeAll ss => Stmt.tokensAll ss
  | _ => []

namespace Session

/-- All that is known after these steps. -/
def setting (history : List (Session × Step)) : Setting where
  made := Made history
  site site := ∃ s step start, (s, step) ∈ history ∧ s.start? step = some start ∧
    site ∈ start.task.sites
  token t := ∃ s step start, (s, step) ∈ history ∧ s.start? step = some start ∧
    t ∈ start.task.tokens

theorem setting_le (history : List (Session × Step)) (entry : Session × Step) :
    (setting history).Le (setting (entry :: history)) := by
  refine ⟨?_, ?_, ?_⟩
  · rintro kind scope ⟨s, step, x, hmem, hx⟩
    exact ⟨s, step, x, List.mem_cons_of_mem _ hmem, hx⟩
  · rintro site ⟨s, step, start, hmem, hsite⟩
    exact ⟨s, step, start, List.mem_cons_of_mem _ hmem, hsite⟩
  · rintro t ⟨s, step, start, hmem, ht⟩
    exact ⟨s, step, start, List.mem_cons_of_mem _ hmem, ht⟩

/-- What holds of a session after these steps. -/
structure Sound (history : List (Session × Step)) (s : Session) : Prop where
  fits : (setting history).Fits s.machine
  current : s.machine.current = globalScope
  depth : s.machine.depth = 0
  nodes : ∀ site, (setting history).site site → site.node < s.nextNode
  unique : ∀ site site', (setting history).site site → (setting history).site site' →
    site.node = site'.node → site = site'
  fresh : ∀ n, s.nextNode ≤ n → s.machine.hops[n]? = none

theorem sound_new (clock : Nat → Float) : Sound [] (.new clock) := by
  have hown : ∀ s name v, (Machine.new clock).scopes.own? s name = some v →
      v = .native .clock := by
    intro s name v hv
    rw [Machine.new, Scopes.own?_define] at hv
    split at hv
    · cases hv
      rfl
    · rw [Scopes.own?_push, Scopes.own?_of_size_le (Nat.zero_le _)] at hv
      cases hv
  refine ⟨⟨by simp [new, Machine.new], ?_, ?_, ?_, ?_⟩, rfl, rfl, ?_, ?_, ?_⟩
  · rw [new, Machine.new, Scopes.enclosing?_define, Scopes.enclosing?_push]
    rfl
  · intro s name v hv
    rw [hown s name v hv]
    trivial
  · intro inst fields name v hfields
    cases hfields
  · rintro site ⟨_, _, _, hmem, _⟩
    cases hmem
  · rintro site ⟨_, _, _, hmem, _⟩
    cases hmem
  · rintro site _ ⟨_, _, _, hmem, _⟩
    cases hmem
  · intro n _
    exact Std.TreeMap.getElem?_emptyc

/-- The table `hops` knows the references of one more text, which are numbered up to `next`. -/
structure Learns (s : Session) (sites : List Site) (next : NodeId) (hops : Hops) : Prop where
  numbered : NumberedSites sites s.nextNode next
  old : ∀ n < s.nextNode, hops[n]? = s.machine.hops[n]?
  new : ∀ site ∈ sites, hops[site.node]? = site.distance?
  fresh : ∀ n, next ≤ n → hops[n]? = none

theorem learns_merge {history : List (Session × Step)} {s : Session} {sites : List Site}
    {next : NodeId} (hs : Sound history s) (hsites : NumberedSites sites s.nextNode next) :
    s.Learns sites next (s.machine.hops.merge (sites.foldl Site.enter ∅)) := by
  have hempty : ∀ n, (∅ : Hops)[n]? = none := fun _ => Std.TreeMap.getElem?_emptyc
  have hother : ∀ n, n ∉ sites.map Site.node →
      (s.machine.hops.merge (sites.foldl Site.enter ∅))[n]? = s.machine.hops[n]? := by
    intro n hn
    rw [getElem?_merge, getElem?_enterAll_of_notMem hn, hempty, Option.none_or]
  refine ⟨hsites, ?_, ?_, ?_⟩
  · intro n hn
    refine hother n fun hmem => ?_
    obtain ⟨site, hsite, rfl⟩ := List.mem_map.mp hmem
    exact absurd hn (Nat.not_lt.mpr (hsites.bounds site hsite).1)
  · intro site hsite
    rw [getElem?_merge, getElem?_enterAll_of_mem hsite hsites.nodup (hempty _),
      hs.fresh _ (hsites.bounds site hsite).1, Option.or_none]
  · intro n hn
    refine (hother n fun hmem => ?_).trans (hs.fresh n (Nat.le_trans hsites.le hn))
    obtain ⟨site, hsite, rfl⟩ := List.mem_map.mp hmem
    exact absurd hn (Nat.not_le.mpr (hsites.bounds site hsite).2)

theorem orderlyAll_of_readProgram {source : String} {tree : List (Stmt Unit)}
    (h : readProgram source = ⟨tree, []⟩) : Stmt.orderlyAll tree := by
  have hreports := congrArg Parsing.Parsed.reports h
  have hvalue := congrArg Parsing.Parsed.value h
  simp only [readProgram, List.append_eq_nil_iff] at hreports hvalue
  exact (Parsing.program_eq_iff.mp
    (by rw [← hvalue, ← hreports.2] : Parsing.program _ = ⟨tree, []⟩)).orderly

/-- A program that is accepted has its references numbered, and the session knows their
distances. -/
theorem unit?_learns {history : List (Session × Step)} {s s' : Session} {source : String}
    {program : List (Stmt NodeId)} (hs : Sound history s)
    (h : s.unit? source = some (program, s')) :
    s.Learns (Stmt.sitesAll [] program) s'.nextNode s'.machine.hops ∧
      s'.machine = { s.machine with hops := s'.machine.hops } ∧ Stmt.orderlyAll program := by
  obtain ⟨tree, hread, rfl, -, rfl⟩ := unit?_eq_some_iff.mp h
  have horderly : Stmt.orderlyAll (s.number tree).1 :=
    (Stmt.orderlyAll_numbered s.nextNode tree).trans (orderlyAll_of_readProgram hread)
  refine ⟨?_, rfl, horderly⟩
  have hlearns := learns_merge hs (Stmt.numberedSitesAll [] s.nextNode tree)
  have hhops :
      (Resolution.resolve s.machine.globalNames (Stmt.numberedList s.nextNode tree).1).hops =
        (Stmt.sitesAll [] (Stmt.numberedList s.nextNode tree).1).foldl Site.enter ∅ :=
    Resolution.hops_resolve _ horderly
  rw [← hhops] at hlearns
  exact hlearns

/-- A machine that fits still does when it has learned the distances of one more program. -/
theorem Sound.fits_of_unit? {history : List (Session × Step)} {s s' : Session} {source : String}
    {program : List (Stmt NodeId)} (hs : Sound history s)
    (h : s.unit? source = some (program, s')) : (setting history).Fits s'.machine := by
  obtain ⟨hlearns, hmachine, -⟩ := unit?_learns hs h
  rw [hmachine]
  exact ⟨hs.fits.nonempty, hs.fits.outermost, hs.fits.bound, hs.fits.fields, fun site hsite =>
    (hlearns.old _ (hs.nodes site hsite)).trans (hs.fits.hops site hsite)⟩

theorem expression_learns {history : List (Session × Step)} {s : Session} (hs : Sound history s)
    (e : Expr Unit) :
    s.Learns ((e.numbered s.nextNode).1.sites []) (e.numbered s.nextNode).2 s.machine.hops := by
  have hnumbered := Expr.numberedSites [] s.nextNode e
  refine ⟨hnumbered, fun _ _ => rfl, ?_, ?_⟩
  · intro site hsite
    rw [Site.distance?_of_nil (Expr.frames_of_mem_sites _ site hsite)]
    exact hs.fresh _ (hnumbered.bounds site hsite).1
  · intro n hn
    exact hs.fresh n (Nat.le_trans hnumbered.le hn)

/-- After a step whose text has these references, all references still have different nodes, and the
machine fits. -/
theorem Sound.extended {history : List (Session × Step)} {s : Session} {step : Step}
    {sites : List Site} {next : NodeId} {hops : Hops} (hs : Sound history s)
    (hcases : ∀ site, (setting ((s, step) :: history)).site site →
      site ∈ sites ∨ (setting history).site site)
    (hlearns : s.Learns sites next hops) :
    Sound ((s, step) :: history) ⟨{ s.machine with hops }, next⟩ := by
  have hle := setting_le history (s, step)
  have hseparate : ∀ site site', site ∈ sites → (setting history).site site' →
      site.node ≠ site'.node := by
    intro site site' hsite hsite'
    have hlt := hs.nodes site' hsite'
    have hle := (hlearns.numbered.bounds site hsite).1
    exact Nat.ne_of_gt (Nat.lt_of_lt_of_le hlt hle)
  refine ⟨⟨hs.fits.nonempty, hs.fits.outermost, ?_, ?_, ?_⟩, hs.current, hs.depth, ?_, ?_,
    hlearns.fresh⟩
  · intro scope name v hv
    exact (hs.fits.bound scope name v hv).le hle
  · intro inst fields name v hfields hv
    exact (hs.fits.fields inst fields name v hfields hv).le hle
  · intro site hsite
    rcases hcases site hsite with hsite | hsite
    · exact hlearns.new site hsite
    · exact (hlearns.old _ (hs.nodes site hsite)).trans (hs.fits.hops site hsite)
  · intro site hsite
    rcases hcases site hsite with hsite | hsite
    · exact (hlearns.numbered.bounds site hsite).2
    · exact Nat.lt_of_lt_of_le (hs.nodes site hsite) hlearns.numbered.le
  · intro site site' hsite hsite' heq
    rcases hcases site hsite with hsite | hsite <;> rcases hcases site' hsite' with hsite' | hsite'
    · exact List.inj_on_of_nodup_map hlearns.numbered.nodup hsite hsite' heq
    · exact absurd heq (hseparate site site' hsite hsite')
    · exact absurd heq.symm (hseparate site' site hsite' hsite)
    · exact hs.unique site site' hsite hsite' heq

theorem site_cases {history : List (Session × Step)} {s : Session} {step : Step} {start : Moment}
    (hstart : s.start? step = some start) {site : Site}
    (hsite : (setting ((s, step) :: history)).site site) :
    site ∈ start.task.sites ∨ (setting history).site site := by
  obtain ⟨s', step', start', hmem, hstart', hsite⟩ := hsite
  rcases List.mem_cons.mp hmem with heq | hmem
  · cases heq
    rw [hstart] at hstart'
    cases hstart'
    exact .inl hsite
  · exact .inr ⟨s', step', start', hmem, hstart', hsite⟩

theorem Sound.skip {history : List (Session × Step)} {s : Session} {step : Step}
    (hs : Sound history s) (hstart : s.start? step = none) {next : NodeId}
    (hnext : s.nextNode ≤ next) :
    Sound ((s, step) :: history) { s with nextNode := next } := by
  have hlearns : s.Learns [] next s.machine.hops :=
    ⟨⟨hnext, by simp, by simp⟩, fun _ _ => rfl, by simp,
      fun n hn => hs.fresh n (Nat.le_trans hnext hn)⟩
  refine hs.extended ?_ hlearns
  rintro site ⟨s', step', start', hmem, hstart', hsite⟩
  rcases List.mem_cons.mp hmem with heq | hmem
  · cases heq
    rw [hstart] at hstart'
    cases hstart'
  · exact .inr ⟨s', step', start', hmem, hstart', hsite⟩

theorem foresees_start {history : List (Session × Step)} {s : Session} {step : Step}
    {start : Moment} (hstart : s.start? step = some start) :
    (setting ((s, step) :: history)).Foresees start :=
  fun y hy _ hkind => ⟨s, step, y, List.mem_cons_self, ⟨start, hstart, hy⟩, hkind, rfl⟩

theorem admits_start {history : List (Session × Step)} {s : Session} {step : Step}
    {start : Moment} (hstart : s.start? step = some start) :
    (setting ((s, step) :: history)).Admits start.task.sites start.task.tokens :=
  ⟨fun _ hsite => ⟨s, step, start, List.mem_cons_self, hstart, hsite⟩,
    fun _ ht => ⟨s, step, start, List.mem_cons_self, hstart, ht⟩⟩

/-- A text that is run begins at a moment that is ready, in a session that is sound. -/
theorem Sound.start_run {history : List (Session × Step)} {s s' : Session} {source : String}
    {program : List (Stmt NodeId)} (hs : Sound history s)
    (h : s.unit? source = some (program, s')) (fuel : Nat) :
    Sound ((s, .run fuel source) :: history) s' ∧
      (setting ((s, .run fuel source) :: history)).Ready []
        ⟨fuel, .executeAll program, s'.machine⟩ := by
  have hstart : s.start? (.run fuel source) = some ⟨fuel, .executeAll program, s'.machine⟩ := by
    rw [start?, h]
    rfl
  obtain ⟨hlearns, hmachine, horderly⟩ := unit?_learns hs h
  have hs' := hs.extended (fun _ => site_cases hstart) hlearns
  rw [← hmachine] at hs'
  exact ⟨hs', hs'.fits, foresees_start hstart, hs'.current, admits_start hstart, horderly⟩

theorem Sound.start_evaluate {history : List (Session × Step)} {s : Session} {source : String}
    {e : Expr Unit} (hs : Sound history s) (h : expression? source = some e) (fuel : Nat) :
    Sound ((s, .evaluate fuel source) :: history)
        { s with nextNode := (e.numbered s.nextNode).2 } ∧
      (setting ((s, .evaluate fuel source) :: history)).Ready []
        ⟨fuel, .evaluate (e.numbered s.nextNode).1, s.machine⟩ := by
  have hstart : s.start? (.evaluate fuel source) =
      some ⟨fuel, .evaluate (e.numbered s.nextNode).1, s.machine⟩ := by
    rw [start?, h]
    rfl
  have hs' := hs.extended (fun _ => site_cases hstart) (expression_learns hs e)
  exact ⟨hs', hs'.fits, foresees_start hstart, hs'.current, admits_start hstart⟩

/-- Every moment that a step comes to is ready. -/
theorem Sound.ready {history : List (Session × Step)} {s : Session} {step : Step} {x : Moment}
    (hs : Sound history s) (hx : s.Passes step x) :
    ∃ Γ, (setting ((s, step) :: history)).Ready Γ x := by
  obtain ⟨start, hstart, hwithin⟩ := hx
  cases step with
  | run fuel source =>
      obtain ⟨⟨program, s'⟩, hunit, rfl⟩ := Option.map_eq_some_iff.mp hstart
      exact (hs.start_run hunit fuel).2.within hwithin
  | evaluate fuel source =>
      obtain ⟨e, he, rfl⟩ := Option.map_eq_some_iff.mp hstart
      exact (hs.start_evaluate he fuel).2.within hwithin
  | writeTo sink => cases hstart

theorem Sound.withMachine {history : List (Session × Step)} {s : Session} {m : Machine}
    (hs : Sound history s) (hfits : (setting history).Fits m) (hhops : m.hops = s.machine.hops)
    (hcurrent : m.current = globalScope) (hdepth : m.depth = 0) :
    Sound history { s with machine := m } :=
  ⟨hfits, hcurrent, hdepth, hs.nodes, hs.unique, fun n hn => hhops ▸ hs.fresh n hn⟩

theorem fits_atRest {W : Setting} {m : Machine} (h : W.Fits m) : W.Fits m.atRest :=
  (h.current globalScope).depth 0

theorem Sound.take_run {history : List (Session × Step)} {s : Session} (hs : Sound history s)
    (fuel : Nat) (source : String) (hends : (s.run fuel source).1 ≠ .unfinished) :
    Sound ((s, .run fuel source) :: history) (s.run fuel source).2 := by
  cases hunit : s.unit? source with
  | none =>
      have hstart : s.start? (.run fuel source) = none := by
        rw [start?, hunit]
        rfl
      obtain ⟨_, _, hsame | hnumbered⟩ := run_of_unit?_eq_none hunit fuel
      · rw [hsame]
        exact hs.skip hstart (Nat.le_refl _)
      · rw [hnumbered]
        exact hs.skip hstart (Stmt.numberedSitesAll [] s.nextNode _).le
  | some unit =>
      obtain ⟨program, s'⟩ := unit
      obtain ⟨hs', hready⟩ := hs.start_run hunit fuel
      have hsettles := hready.settles.executeAll
      rw [run_of_unit? hunit] at hends ⊢
      obtain ⟨m', hafter, hrun⟩ := conclude_interpret hends
      have hm' : s'.machine.Resumes m' ∧ (setting ((s, .run fuel source) :: history)).Fits m' := by
        rcases hrun with ⟨flow, hrun⟩ | ⟨fault, hrun⟩ <;> rw [hrun] at hsettles
        · exact ⟨hsettles.1, hsettles.2.1⟩
        · exact hsettles
      rw [hafter]
      exact hs'.withMachine (fits_atRest hm'.2) hm'.1.hops rfl rfl

theorem Sound.take_evaluate {history : List (Session × Step)} {s : Session} (hs : Sound history s)
    (fuel : Nat) (source : String) (hends : (s.evaluate fuel source).1 ≠ .unfinished) :
    Sound ((s, .evaluate fuel source) :: history) (s.evaluate fuel source).2 := by
  cases he : expression? source with
  | none =>
      have hstart : s.start? (.evaluate fuel source) = none := by
        rw [start?, he]
        rfl
      obtain ⟨_, hsame⟩ := evaluate_of_expression?_eq_none (s := s) he fuel
      rw [hsame]
      exact hs.skip hstart (Nat.le_refl _)
  | some e =>
      obtain ⟨hs', hready⟩ := hs.start_evaluate he fuel
      have hsettles := hready.settles.evaluate
      rw [evaluate_of_expression? he, evaluateExpr] at hends ⊢
      dsimp only at hends ⊢
      cases hrun : Lox.evaluate fuel (e.numbered s.nextNode).1 s.machine with
      | done v m' =>
          rw [hrun] at hsettles
          obtain ⟨hresumes, hfits, -⟩ := hsettles
          exact hs'.withMachine hfits hresumes.hops (hresumes.current.trans hs.current)
            (hresumes.depth.trans hs.depth)
      | failed fault m' =>
          rw [hrun] at hsettles
          obtain ⟨hresumes, hfits⟩ := hsettles
          exact hs'.withMachine hfits hresumes.hops (hresumes.current.trans hs.current)
            (hresumes.depth.trans hs.depth)
      | unfinished =>
          rw [hrun] at hends
          exact absurd rfl hends

theorem Sound.take {history : List (Session × Step)} {s : Session} (hs : Sound history s)
    (step : Step) (hends : (s.take step).1 ≠ .unfinished) :
    Sound ((s, step) :: history) (s.take step).2 := by
  cases step with
  | run fuel source => exact hs.take_run fuel source hends
  | evaluate fuel source => exact hs.take_evaluate fuel source hends
  | writeTo sink =>
      have hs' : Sound ((s, .writeTo sink) :: history) s := hs.skip rfl (Nat.le_refl s.nextNode)
      exact hs'.withMachine ⟨hs'.fits.nonempty, hs'.fits.outermost, hs'.fits.bound,
        hs'.fits.fields, hs'.fits.hops⟩ rfl hs.current hs.depth

theorem Reached.sound {clock : Nat → Float} {history : List (Session × Step)} {s : Session}
    (h : Reached clock history s) : Sound history s := by
  induction h with
  | new => exact sound_new clock
  | step _ step hends ih => exact ih.take step hends

end Session

end Lox
