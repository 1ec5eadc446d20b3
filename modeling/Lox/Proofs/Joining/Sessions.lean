import Lox.Proofs.Joining.Units
import Lox.Proofs.Running.Fuel
import Lox.Proofs.Running.Growth
import Lox.Proofs.Running.Resuming
import Lox.Proofs.Running.Returns

/-!
A program may be given in units.

Where a text runs to its end and another one is accepted after it, the two are accepted as one text.
A run of that writes what the runs of the two write, and ends as the second one does.
-/

namespace Lox

open Scoping

/-- Programs that are the same, at the distances of a table. -/
def Correspondence.same (hops : Hops) (W : Setting) : Correspondence :=
  .ofNewName hops (fun node => ∃ site, W.site site ∧ site.node = node) "" "" (by decide) (by decide)

theorem Correspondence.same_le {W W' : Setting} (h : W.Le W') (hops : Hops) :
    (same hops W).Le (same hops W') := by
  refine ⟨rfl, rfl, ?_, fun _ _ h => h⟩
  rintro _ ⟨site, hsite, rfl⟩
  exact ⟨⟨site, h.site site hsite, rfl⟩, rfl⟩

namespace Setting

variable {W : Setting} {Γ : List OpenFrame} {m m' : Machine} {n n' : Nat}

theorem Ready.resumes_of_append {before after : List (Stmt NodeId)}
    (hx : W.Ready Γ ⟨n' + before.length, .executeAll (before ++ after), m⟩)
    (h : executeAll n before m = .done .normal m') (hle : n ≤ n' + before.length) :
    m.Resumes m' := by
  induction before generalizing n m Γ with
  | nil =>
      cases n with
      | zero => cases h
      | succ n =>
          cases h
          exact .refl _
  | cons s before ih =>
      obtain ⟨k, m₁, rfl, hs, h⟩ := exists_of_executeAll_cons h
      have hle : k ≤ n' + before.length := Nat.le_of_succ_le_succ hle
      have hmore : execute (n' + before.length) s m = .done .normal m₁ :=
        (execute_below_of_le hle s m (by simp [hs])).trans hs
      rw [List.length_cons, ← Nat.add_assoc, List.cons_append] at hx
      obtain ⟨_, hfirst⟩ := hx.within (.single .first)
      obtain ⟨_, hothers⟩ := hx.within (.single (.others hmore))
      exact (hfirst.settles.execute.of_done hmore).1.trans (ih hothers h hle)

theorem Ready.executeAll_of_hops {program : List (Stmt NodeId)} {hops : Hops}
    (hx : W.Ready [] ⟨n, .executeAll program, m⟩)
    (hhops : ∀ site, W.site site → hops[site.node]? = site.distance?)
    (h : executeAll n program m = .done .normal m') :
    ∃ ω m'', executeAll n program { m with hops } = .done .normal m'' ∧
      (Correspondence.same hops W).Matches ω m' m'' := by
  have hC : (Correspondence.same hops W).Keeps W := Correspondence.ofNewName_keeps hhops
  obtain ⟨hcurrent, hadmits, horderly⟩ := hx.task
  have hchain : (Plan.ofScopes m.scopes).Leads [] globalScope := rfl
  have halike := hC.likeness.statements rfl hadmits horderly
  have hmatches : (Correspondence.same hops W).Matches (.ofScopes m.scopes) m
      { m with hops } := by
    refine hx.fits.matches hC ?_
    rintro _ ⟨site, hsite, rfl⟩
    exact ⟨(hx.fits.hops site hsite).trans (hhops site hsite).symm, rfl⟩
  have hends := (Correspondence.simulates _ n).executeAll hmatches hcurrent hchain halike hx.sure
  rw [h] at hends
  generalize executeAll n program { m with hops } = ending at hends
  cases hends with
  | ended _ hmatches _ hflow =>
      cases hflow
      exact ⟨_, _, rfl, hmatches⟩

end Setting

namespace Session

variable {clock : Nat → Float} {history : List (Session × Step)} {s s' first s'' joined : Session}
  {source more both : String} {program program' : List (Stmt NodeId)} {m : Machine} {n k fuel : Nat}

theorem start?_run (hunit : s.unit? source = some (program, s')) (fuel : Nat) :
    s.start? (.run fuel source) = some ⟨fuel, .executeAll program, s'.machine⟩ := by
  rw [start?, hunit]
  rfl

/-- Two programs as one know the distances that each of them knows. -/
theorem Sound.hops_append (hs : Sound history s) (hunit : s.unit? source = some (program, s'))
    (hjoined : s.unit? both = some (program ++ program', joined)) {site : Site}
    (hsite : site ∈ Stmt.sitesAll [] program' ∨
      (setting ((s, .run n source) :: history)).site site) :
    joined.machine.hops[site.node]? = site.distance? := by
  obtain ⟨-, hready⟩ := hs.start_run hjoined n
  obtain ⟨-, hadmits, -⟩ := hready.task
  rw [Stmt.sitesAll_append, Stmt.afterAll_nil] at hadmits
  refine hready.fits.hops site ?_
  rcases hsite with hsite | hsite
  · exact hadmits.sites site (List.mem_append_right _ hsite)
  · rcases site_cases (start?_run hunit n) hsite with hsite | hsite
    · exact hadmits.sites site (List.mem_append_left _ hsite)
    · exact (setting_le history _).site site hsite

/-- A run of two programs as one ends as the run of the second one does after the first. -/
theorem Sound.run_joined (hs : Sound history s) (hunit : s.unit? source = some (program, s'))
    (hrun : executeAll n program s'.machine = .done .normal m)
    (hfirst : Sound ((s, .run n source) :: history) first) (hm : first.machine = m.atRest)
    (hmore : first.unit? more = some (program', s''))
    (hjoined : s.unit? both = some (program ++ program', joined))
    (hle : n ≤ fuel + program.length) :
    (s.run (fuel + program.length) both).1 = (first.run fuel more).1 ∧
      ((first.run fuel more).1 ≠ .unfinished →
        (s.run (fuel + program.length) both).2.output = (first.run fuel more).2.output ∧
          (s.run (fuel + program.length) both).2.globalNames =
            (first.run fuel more).2.globalNames) := by
  obtain ⟨hstart', hstart⟩ := hs.start_run hunit n
  have hboth := (hs.start_run hjoined (fuel + program.length)).2
  have hready := (hfirst.start_run hmore fuel).2
  obtain ⟨hcurrent, hadmits, horderly⟩ := hready.task
  obtain ⟨-, hmachine, -⟩ := unit?_learns hs hunit
  obtain ⟨-, hmachine', -⟩ := unit?_learns hs hjoined
  obtain ⟨-, hmachine'', -⟩ := unit?_learns hfirst hmore
  have hwider := setting_le ((s, .run n source) :: history) (first, .run fuel more)
  have hhops : ∀ site,
      (setting ((first, .run fuel more) :: (s, .run n source) :: history)).site site →
        joined.machine.hops[site.node]? = site.distance? := fun site hsite =>
    hs.hops_append hunit hjoined (site_cases (start?_run hmore fuel) hsite)
  obtain ⟨ω, m', hrun', hmatches⟩ := hstart.executeAll_of_hops
    (fun site hsite => hhops site (hwider.site site hsite)) hrun
  have hlearned : { s'.machine with hops := joined.machine.hops } = joined.machine := by
    rw [hmachine, hmachine']
  rw [hlearned] at hrun'
  have hrest : m.atRest = m := (hstart.settles.executeAll.of_done hrun).1.atRest_eq
    hstart'.current hstart'.depth
  -- Where the second program starts, the two machines differ in what they know of distances only.
  have hmatches : (Correspondence.same joined.machine.hops
      (setting ((first, .run fuel more) :: (s, .run n source) :: history))).Matches ω
        s''.machine m' := by
    rw [hmachine'', hm, hrest]
    refine hmatches.le (Correspondence.same_le hwider _) ?_
    rintro _ ⟨site, hsite, rfl⟩
    have hhop := hhops site hsite
    refine ⟨(hready.fits.hops site hsite).trans hhop.symm, ?_⟩
    rw [(hboth.resumes_of_append hrun' hle).hops]
    rfl
  have hkeeps : (Correspondence.same joined.machine.hops
      (setting ((first, .run fuel more) :: (s, .run n source) :: history))).Keeps _ :=
    Correspondence.ofNewName_keeps hhops
  have hends := Correspondence.interpret_alike hmatches hcurrent
    (hkeeps.likeness.statements rfl hadmits horderly) hready.sure
  rw [← interpret_append hrun' program' hle] at hends
  obtain ⟨hanswers, hrest⟩ := conclude_alike hends s'' joined
  rw [run_of_unit? hjoined, run_of_unit? hmore]
  exact ⟨hanswers.eq fun _ _ h => h, fun hne => hrest fun h => absurd h hne⟩

theorem run_ne_staticErrors (hunit : s.unit? source = some (program, s')) (fuel : Nat)
    (faults : List Diagnostic) : (s.run fuel source).1 ≠ .staticErrors faults := by
  rw [run_of_unit? hunit]
  cases Machine.interpret fuel program s'.machine <;> simp [conclude]

/-- A program may be given in units. Where one text runs to its end and another one is accepted
after it, the two are accepted as one text. A run of that, with the fuel for the statements of the
first text besides, writes what the first run wrote and then what the second one adds, and leaves
the same names. It answers as the second text does further down, and so as the second text does but
for the lines of its tokens. -/
theorem run_append (hs : Reached clock history s) (hfirst : s.run n source = (.completed, first))
    (hsecond : ∀ faults, (first.run k more).1 ≠ .staticErrors faults) :
    (∀ fuel faults, (s.run fuel (source ++ "\n" ++ more)).1 ≠ .staticErrors faults) ∧
      ∃ extra written, first.output = s.output ++ written ∧
        ∀ fuel, n ≤ fuel + extra →
          (s.run (fuel + extra) (source ++ "\n" ++ more)).1 =
              (first.run fuel (lowered (linesOf source) more)).1 ∧
            Answer.Alike
              (Token.Lowers (setting ((s, .run n source) :: history)).token (· ∈ Scan.tokens more)
                (linesOf source))
              (first.run fuel more).1 (s.run (fuel + extra) (source ++ "\n" ++ more)).1 ∧
            ((first.run fuel more).1 ≠ .unfinished →
              (s.run (fuel + extra) (source ++ "\n" ++ more)).2.globalNames =
                  (first.run fuel more).2.globalNames ∧
                ∃ added, (first.run fuel more).2.output = first.output ++ added ∧
                  (s.run (fuel + extra) (source ++ "\n" ++ more)).2.output =
                    s.output ++ written ++ added) := by
  obtain ⟨program, s', m, hunit, hrun, hafter⟩ := exists_of_completed (congrArg Prod.fst hfirst)
  have hends : (s.run n source).1 ≠ .unfinished := by simp [hfirst]
  have hsound := hs.sound.take_run n source hends
  have hgrows := hs.sound.run_grows hunit hends
  rw [hfirst] at hafter hsound hgrows
  dsimp only at hafter hsound hgrows
  have hmachine : first.machine = m.atRest := by rw [hafter]
  have hnode : first.nextNode = s'.nextNode := by rw [hafter]
  cases hmore : first.unit? more with
  | none =>
      obtain ⟨faults, hfaults, -⟩ := run_of_unit?_eq_none hmore k
      exact absurd hfaults (hsecond faults)
  | some unit =>
      obtain ⟨program', s''⟩ := unit
      obtain ⟨lower, hlower, hlowered⟩ := run_lowered hsound hmore (linesOf source)
      obtain ⟨joined, hjoined⟩ := unit?_append hunit hnode hlower hgrows.globalNames_subset
      obtain ⟨written, hwritten⟩ := hgrows.text
      refine ⟨fun fuel => run_ne_staticErrors hjoined fuel, program.length, written, hwritten,
        fun fuel hle => ?_⟩
      obtain ⟨hanswer, hrest⟩ := hs.sound.run_joined hunit hrun hsound hmachine hlower hjoined hle
      obtain ⟨halike, houtput, hnames⟩ := hlowered fuel
      rw [hanswer]
      refine ⟨rfl, halike, fun hends' => ?_⟩
      obtain ⟨houtput', hnames'⟩ := hrest (halike.ne_unfinished hends')
      obtain ⟨added, hadded⟩ := (hsound.run_grows hmore hends').text
      refine ⟨hnames'.trans hnames, added, hadded, ?_⟩
      rw [houtput', houtput]
      exact hadded.trans (congrArg (· ++ added) hwritten)

/-- A fault in the second of two texts is further down in both as one. -/
theorem run_append_of_fault :
    ∃ first, (Session.new fun _ => 0).run 9 "var a;" = (.completed, first) ∧
      (first.run 9 "-nil;").1 =
        .runtimeError (.runtime ⟨.symbol .minus, "-", 1⟩ .operandNotNumber) ∧
      ∃ fuel, ((Session.new fun _ => 0).run fuel ("var a;" ++ "\n" ++ "-nil;")).1 =
        .runtimeError (.runtime ⟨.symbol .minus, "-", 2⟩ .operandNotNumber) := by
  let s : Session := .new fun _ => 0
  let hops : Hops := s.machine.hops.merge ∅
  let first : Session :=
    ⟨{ s.machine with hops, scopes := s.machine.scopes.define globalScope "a" .nil }, 0⟩
  have hunit : s.unit? "var a;" =
      some ([.var ⟨.identifier, "a", 1⟩ none], ⟨{ s.machine with hops }, 0⟩) := by
    refine unit?_eq_some_iff.mpr ⟨[.var ⟨.identifier, "a", 1⟩ none], ?_, rfl, rfl, rfl⟩
    cbv
  have hfirst : s.run 9 "var a;" = (.completed, first) := by
    rw [run_of_unit? hunit]
    rfl
  have hmore : ∀ line text, readProgram text =
      ⟨[.expression (.unary ⟨.symbol .minus, "-", line⟩ (.literal .nil))], []⟩ →
      (first.run 9 text).1 =
        .runtimeError (.runtime ⟨.symbol .minus, "-", line⟩ .operandNotNumber) := by
    intro line text hread
    have hunit' : first.unit? text =
        some ([.expression (.unary ⟨.symbol .minus, "-", line⟩ (.literal .nil))], _) :=
      unit?_eq_some_iff.mpr ⟨_, hread, rfl, rfl, rfl⟩
    rw [run_of_unit? hunit']
    rfl
  have hanswer := hmore 1 "-nil;" (by cbv)
  have hsecond : ∀ faults, (first.run 9 "-nil;").1 ≠ .staticErrors faults := by simp [hanswer]
  obtain ⟨-, extra, _, -, hall⟩ := run_append .new hfirst hsecond
  exact ⟨first, hfirst, hanswer, _,
    (hall 9 (Nat.le_add_right 9 extra)).1.trans (hmore 2 _ (by cbv))⟩

end Session

end Lox
