import Lox.Proofs.Running.SessionSoundness
import Lox.Proofs.Running.Undefined

/-!
Whenever a reference is evaluated, its distance is right.

The scopes from the current one outwards are then those of the frames around the reference, however
its function came to be called. So the scope at its distance is there and binds the name, and a name
is undefined only where a reference has no distance.
-/

namespace Lox

open Resolution Scoping

namespace Setting

variable {W : Setting} {m : Machine} {site : Site} {distance : Nat}

/-- The scope at the distance of a reference is there, and binds the name if it is to be read. -/
theorem Fits.ancestor? (hm : W.Fits m) (hsite : W.site site)
    (hchain : W.Chain m.scopes site.frames m.current) (hhop : m.hops[site.node]? = some distance) :
    ∃ scope, m.scopes.ancestor? m.current distance = some scope ∧
      (site.use ≠ .write → (m.scopes.own? scope site.name.lexeme).isSome) := by
  have hdistance := hhop
  rw [hm.hops site hsite] at hdistance
  obtain ⟨-, names, ready, hnames, hname, hready⟩ :=
    find_eq_bound (Site.find_of_distance? hdistance)
  rw [List.getElem?_map, Option.map_eq_some_iff, Nat.sub_zero] at hnames
  obtain ⟨F, hF, rfl⟩ := hnames
  obtain ⟨scope, hscope, hfits⟩ := hchain.ancestor? hF
  refine ⟨scope, hscope, fun huse => hfits.names _ ?_⟩
  rw [hname, hready (decide_eq_true huse)]

end Setting

/-- The moment evaluates the reference at the node. -/
def Moment.Refers (x : Moment) (node : NodeId) : Prop :=
  match x.task with
  | .evaluate (.var n _) | .evaluate (.this n _) | .evaluate (.assign n _ _) => n = node
  | .lookUp n _ | .assign n _ _ => n = node
  | _ => False

/-- Where a reference is evaluated, the machine stands among the scopes of its frames. -/
theorem Setting.Ready.site_of_refers {W : Setting} {Γ : List OpenFrame} {x : Moment}
    {node : NodeId} (h : W.Ready Γ x) (hx : x.Refers node) :
    ∃ site, W.site site ∧ site.node = node ∧ site.frames = Γ ∧
      W.Chain x.machine.scopes Γ x.machine.current := by
  obtain ⟨fuel, task, m⟩ := x
  have htask := h.task
  cases task with
  | evaluate e =>
      obtain ⟨hchain, hadmits⟩ := htask
      cases e with
      | var n name | this n name =>
          exact ⟨_, hadmits.sites _ (List.mem_singleton_self _), hx, rfl, hchain⟩
      | assign n name value =>
          exact ⟨_, hadmits.sites _ (List.mem_append_right _ (List.mem_singleton_self _)), hx, rfl,
            hchain⟩
      | _ => exact hx.elim
  | lookUp n name =>
      obtain ⟨hchain, use, _, hsite⟩ := htask
      exact ⟨_, hsite, hx, rfl, hchain⟩
  | assign n name v =>
      obtain ⟨hchain, hsite, _⟩ := htask
      exact ⟨_, hsite, hx, rfl, hchain⟩
  | _ => exact hx.elim

/-- A name that is found undefined has no distance. -/
theorem Setting.Ready.hops_of_fails {W : Setting} {Γ : List OpenFrame} {x : Moment}
    {node : NodeId} {name : Token} (h : W.Ready Γ x) (hx : x.Names node name)
    (hfails : x.Fails (.undefined name)) : x.machine.hops[node]? = none := by
  obtain ⟨fuel, task, m⟩ := x
  have htask := h.task
  rw [Option.eq_none_iff_forall_ne_some]
  -- With a distance the scope is there and binds the name, so neither use of it fails.
  intro distance hhop
  rcases hx with rfl | ⟨v, rfl⟩
  · obtain ⟨m', hfails⟩ := hfails
    obtain ⟨hchain, use, huse, hsite⟩ := htask
    obtain ⟨scope, hscope, hbound⟩ := h.fits.ancestor? hsite hchain hhop
    obtain ⟨v, hv⟩ := Option.isSome_iff_exists.mp (hbound huse)
    have hfails := Ending.map_eq_failed_iff.mp hfails
    simp only [Run.lookUp, hhop, Scopes.getAt?, hscope, Option.bind_some, hv] at hfails
    cases hfails
  · obtain ⟨m', hfails⟩ := hfails
    obtain ⟨hchain, hsite, -⟩ := htask
    obtain ⟨scope, hscope, -⟩ := h.fits.ancestor? hsite hchain hhop
    have hfails := Ending.map_eq_failed_iff.mp hfails
    simp only [Run.assign, hhop, hscope] at hfails
    cases hfails

namespace Session

/-- A reference of a program that one of the steps ran. -/
def Ran (history : List (Session × Step)) (site : Site) : Prop :=
  ∃ s step program, (s, step) ∈ history ∧ s.program? step = some program ∧
    site ∈ Stmt.sitesAll [] program

/-- The machine stands where the reference stands in its text. The frames around the reference have
a scope each, and the table has a distance at which it finds its scope. -/
structure StandsAt (history : List (Session × Step)) (site : Site) (m : Machine) : Prop where
  scopes : ∃ inner, m.scopes.outwards m.current = inner ++ [globalScope] ∧ globalScope ∉ inner ∧
    List.Forall₂ (fun F scope => Made history F.kind scope ∧
      (F.kind = .receiver → (m.scopes.own? scope thisName).isSome)) site.frames inner
  hop : m.hops[site.node]? = site.distance?
  ancestor : ∀ distance, m.hops[site.node]? = some distance →
    (m.scopes.ancestor? m.current distance).isSome
  bound : ∀ distance, m.hops[site.node]? = some distance → site.use ≠ .write →
    (m.scopes.getAt? m.current distance site.name.lexeme).isSome
  assignable : ∀ distance v, m.hops[site.node]? = some distance →
    (m.scopes.assignAt? m.current distance site.name.lexeme v).isSome

variable {clock : Nat → Float} {history : List (Session × Step)} {s : Session} {step : Step}

theorem site_of_ran {site : Site} (h : Ran history site) : (setting history).site site := by
  obtain ⟨s, step, program, hmem, hprogram, hsite⟩ := h
  cases step with
  | run fuel source =>
      obtain ⟨unit, hunit, rfl⟩ := Option.map_eq_some_iff.mp hprogram
      refine ⟨s, _, ⟨fuel, .executeAll unit.1, unit.2.machine⟩, hmem, ?_, hsite⟩
      rw [start?, hunit]
      rfl
  | _ => cases hprogram

theorem standsAt_of_fits {site : Site} {m : Machine} (hm : (setting history).Fits m)
    (hsite : (setting history).site site)
    (hchain : (setting history).Chain m.scopes site.frames m.current) :
    StandsAt history site m := by
  have hscope : ∀ distance, m.hops[site.node]? = some distance →
      ∃ scope, m.scopes.ancestor? m.current distance = some scope ∧
        (site.use ≠ .write → (m.scopes.own? scope site.name.lexeme).isSome) :=
    fun _ => hm.ancestor? hsite hchain
  refine ⟨?_, hm.hops site hsite, ?_, ?_, ?_⟩
  · obtain ⟨inner, hinner, hglobal, hfits⟩ := hchain.outwards hm.outermost
    exact ⟨inner, hinner, hglobal, hfits.imp fun _ _ h => ⟨h.made, h.receiver⟩⟩
  · intro distance hhop
    obtain ⟨scope, hscope, -⟩ := hscope distance hhop
    rw [hscope]
    rfl
  · intro distance hhop huse
    obtain ⟨scope, hscope, hbound⟩ := hscope distance hhop
    rw [Scopes.getAt?, hscope]
    exact hbound huse
  · intro distance v hhop
    obtain ⟨scope, hscope, -⟩ := hscope distance hhop
    rw [Scopes.assignAt?, hscope]
    rfl

/-- All references have different nodes, also in a step that is not over yet. -/
theorem Sound.unique_passing {x : Moment} (h : Sound history s) (hx : s.Passes step x)
    {site site' : Site} (hsite : (setting ((s, step) :: history)).site site)
    (hsite' : (setting ((s, step) :: history)).site site') (heq : site.node = site'.node) :
    site = site' := by
  obtain ⟨start, hstart, -⟩ := hx
  cases step with
  | run fuel source =>
      obtain ⟨unit, hunit, -⟩ := Option.map_eq_some_iff.mp hstart
      exact (h.start_run hunit fuel).1.unique site site' hsite hsite' heq
  | evaluate fuel source =>
      obtain ⟨e, he, -⟩ := Option.map_eq_some_iff.mp hstart
      exact (h.start_evaluate he fuel).1.unique site site' hsite hsite' heq
  | writeTo sink => cases hstart

theorem start?_of_take {name : Token} (h : (s.take step).1 = .runtimeError (.undefined name)) :
    ∃ start ∈ s.start? step, start.Fails (.undefined name) := by
  cases step with
  | run fuel source =>
      cases hunit : s.unit? source with
      | none =>
          obtain ⟨faults, hfaults, -⟩ := run_of_unit?_eq_none hunit fuel
          replace h : (s.run fuel source).1 = _ := h
          rw [hfaults] at h
          cases h
      | some unit =>
          obtain ⟨program, s'⟩ := unit
          refine ⟨⟨fuel, .executeAll program, s'.machine⟩, by rw [start?, hunit]; rfl, ?_⟩
          replace h : (s.run fuel source).1 = _ := h
          rw [run_of_unit? hunit, Machine.interpret] at h
          dsimp only at h
          split at h
          · split at h <;> cases h
          · rename_i fault m hrun
            split at h
            · cases h
              exact ⟨m, Ending.map_eq_failed_iff.mpr hrun⟩
            · cases h
          · cases h
  | evaluate fuel source =>
      cases he : expression? source with
      | none =>
          obtain ⟨faults, hfaults⟩ := evaluate_of_expression?_eq_none (s := s) he fuel
          replace h : (s.evaluate fuel source).1 = _ := h
          rw [hfaults] at h
          cases h
      | some e =>
          refine ⟨⟨fuel, .evaluate (e.numbered s.nextNode).1, s.machine⟩,
            by rw [start?, he]; rfl, ?_⟩
          replace h : (s.evaluate fuel source).1 = _ := h
          rw [evaluate_of_expression? he, evaluateExpr] at h
          dsimp only at h
          cases hrun : Lox.evaluate fuel (e.numbered s.nextNode).1 s.machine with
          | done v m =>
              rw [hrun] at h
              cases h
          | failed fault m =>
              rw [hrun] at h
              cases h
              exact ⟨m, Ending.map_eq_failed_iff.mpr hrun⟩
          | unfinished =>
              rw [hrun] at h
              cases h
  | writeTo sink => cases h

/-- In every session and at every moment, also of a function from an earlier step, a reference of a
program that was run finds the machine where it stands in its text. A name is found undefined only
at a node without a distance. -/
theorem standsAt_of_refers (h : Reached clock history s) (step : Step) :
    (∀ x site, s.Passes step x → Ran ((s, step) :: history) site → x.Refers site.node →
      StandsAt ((s, step) :: history) site x.machine) ∧
    ∀ name, (s.take step).1 = .runtimeError (.undefined name) →
      ∃ x node, s.Passes step x ∧ x.Names node name ∧ x.machine.hops[node]? = none := by
  constructor
  · intro x site hx hran hrefers
    obtain ⟨Γ, hready⟩ := h.sound.ready hx
    obtain ⟨site', hsite', hnode, rfl, hchain⟩ := hready.site_of_refers hrefers
    have hsite := site_of_ran hran
    obtain rfl := h.sound.unique_passing hx hsite' hsite hnode
    exact standsAt_of_fits hready.fits hsite hchain
  · intro name hname
    obtain ⟨start, hstart, hfails⟩ := start?_of_take hname
    obtain ⟨x, node, hwithin, hnames, hfails⟩ := exists_within_of_fails hfails
    have hx : s.Passes step x := ⟨start, hstart, hwithin⟩
    obtain ⟨Γ, hready⟩ := h.sound.ready hx
    exact ⟨x, node, hx, hnames, hready.hops_of_fails hnames hfails⟩

theorem standsAt_of_refers_in_block :
    ∃ x site, (Session.new fun _ => 0).Passes (.run 9 "\x7bvar a;a;\x7d") x ∧
      x.Refers site.node ∧ site.frames.length = 1 ∧ site.distance? = some 0 ∧
      StandsAt [(.new fun _ => 0, .run 9 "\x7bvar a;a;\x7d")] site x.machine := by
  let a : Token := ⟨.identifier, "a", 1⟩
  let body : List (Stmt NodeId) := [.var a none, .expression (.var 0 a)]
  let s' : Session := ⟨{ Machine.new (fun _ => 0) with hops := (∅ : Hops).insert 0 0 }, 1⟩
  have hunit : (Session.new fun _ => 0).unit? "\x7bvar a;a;\x7d" = some ([.block body], s') := by
    refine unit?_eq_some_iff.mpr
      ⟨[.block [.var a none, .expression (.var () a)]], ?_, rfl, rfl, rfl⟩
    cbv
  let inside := s'.machine.enterBlock
  let declared := { inside with scopes := inside.scopes.define 1 "a" .nil }
  let site : Site := ⟨0, a, .read, [⟨.block, (Bindings.empty.insert "a" false).insert "a" true⟩]⟩
  have hx : (Session.new fun _ => 0).Passes (.run 9 "\x7bvar a;a;\x7d")
      ⟨4, .evaluate (.var 0 a), declared⟩ := by
    refine ⟨⟨9, .executeAll [.block body], s'.machine⟩, by rw [start?, hunit]; rfl, ?_⟩
    exact .head .first (.head .block (.head (.others rfl) (.head .first (.head .expression .refl))))
  have hran : Ran [(.new fun _ => 0, .run 9 "\x7bvar a;a;\x7d")] site :=
    ⟨_, _, [.block body], List.mem_singleton_self _, by rw [program?, hunit]; rfl,
      List.mem_singleton_self _⟩
  exact ⟨_, site, hx, rfl, rfl, by decide, (standsAt_of_refers .new _).1 _ site hx hran rfl⟩

end Session

end Lox
