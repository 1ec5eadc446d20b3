import Lox.Proofs.Globals.Declarations
import Lox.Proofs.Running.Distances
import Lox.Proofs.Running.Returns

/-!
Only top-level declarations make globals.

An evaluation leaves the globals as they are, and a unit adds the names of those of its declarations
that were executed. No other part of a step adds a name, however deep it stands, and none is ever
taken away.
-/

namespace Lox

variable {program : List (Stmt NodeId)} {x y : Moment}

/-- In the outermost scope the moment executes statements of the program in their order, or a single
one of them, or else a statement that declares nothing. -/
def Moment.Placed (program : List (Stmt NodeId)) (x : Moment) : Prop :=
  x.machine.current = globalScope →
    match x.task with
    | .execute s => s.plain ∨ s ∈ program
    | .executeAll ss => ss <:+ program
    | _ => True

/-- The moment executes statements of the program in its outermost scope, or one of them that is a
declaration. -/
def Moment.Declares (program : List (Stmt NodeId)) (x : Moment) : Prop :=
  x.machine.current = globalScope ∧
    match x.task with
    | .execute s => s ∈ program ∧ s.binds?.isSome
    | .executeAll ss => ss <:+ program
    | _ => False

namespace Setting

variable {W : Setting} {Γ : List OpenFrame}

/-- Blocks and functions run in scopes of their own, and no branch is a declaration. -/
theorem Ready.placed_of_part (hx : W.Ready Γ x) (hpart : Part x y) (h : x.Placed program) :
    y.Placed program := by
  intro hcurrent
  cases hpart with
  | body | block => exact absurd hcurrent hx.fits.size_ne
  | @consequent _ _ _ _ _ other =>
      have horderly := hx.task.2.2
      cases other <;> simp only [Stmt.orderly, Bool.and_eq_true] at horderly
      · exact .inl horderly.1
      · exact .inl horderly.1.1.1
  | alternative =>
      have horderly := hx.task.2.2
      simp only [Stmt.orderly, Bool.and_eq_true] at horderly
      exact .inl horderly.1.2
  | loopBody =>
      have horderly := hx.task.2.2
      simp only [Stmt.orderly, Bool.and_eq_true] at horderly
      exact .inl horderly.1
  | loopAgain => exact .inl rfl
  | first => exact .inr ((h hcurrent).subset List.mem_cons_self)
  | others hs =>
      have hsame := (((allResume _).execute _).of_done hs).current
      exact (List.suffix_cons _ _).trans (h (hsame.symm.trans hcurrent))
  | _ => trivial

theorem Ready.placed (hx : W.Ready Γ x) (hwithin : Within x y) (h : x.Placed program) :
    y.Placed program := by
  induction hwithin with
  | refl => exact h
  | tail hwithin hpart ih =>
      obtain ⟨_, hready⟩ := hx.within hwithin
      exact hready.placed_of_part hpart ih

theorem Ready.adds_nothing_of_placed {m : Machine} (hx : W.Ready Γ x) (h : x.Placed program)
    (hdeclares : ¬x.Declares program) (hleft : x.Left m) : x.machine.Adds [] m := by
  refine hx.adds_nothing hleft ?_
  obtain ⟨n, task, m₀⟩ := x
  -- In an inner scope nothing adds a global, and in the outermost one only declarations do.
  by_cases hcurrent : m₀.current = globalScope
  · have hplaced := h hcurrent
    cases task with
    | execute s =>
        have hplain : s.plain := by
          by_contra hplain
          exact hdeclares ⟨hcurrent, hplaced.resolve_left hplain, Stmt.isSome_binds? hplain⟩
        dsimp only [Moment.declared]
        rw [s.declared_of_plain hplain hx.task.2.2]
        exact ite_self _
    | executeAll ss => exact absurd ⟨hcurrent, hplaced⟩ hdeclares
    | _ => rfl
  · cases task with
    | execute s => exact Machine.declares_of_ne hcurrent _
    | executeAll ss => exact Machine.declares_of_ne hcurrent _
    | _ => rfl

/-- An assignment that fails has failed in its right-hand side, or it changes nothing after that and
its name is no global. -/
theorem Ready.assign_failed {n : Nat} {node : NodeId} {name : Token} {e : Expr NodeId}
    {m m' : Machine} {fault : Diagnostic}
    (hx : W.Ready Γ ⟨n + 1, .evaluate (.assign node name e), m⟩)
    (h : Lox.evaluate (n + 1) (.assign node name e) m = .failed fault m') :
    Lox.evaluate n e m = .failed fault m' ∨
      (∃ v, Lox.evaluate n e m = .done v m') ∧ fault = .undefined name ∧
        m'.hops[node]? = none ∧ name.lexeme ∉ m'.globalNames := by
  rcases Run.failed_cases h with h | ⟨v, m₁, hv, h⟩
  · exact .inl h
  rcases Run.failed_cases h with hassign | ⟨_, _, -, ⟨⟩⟩
  obtain ⟨_, hready⟩ := hx.within (.single (.assign hv))
  unfold Run.assign at hassign
  dsimp only at hassign
  split at hassign
  · cases hassign
  · rename_i htarget
    cases hassign
    have hfails : Moment.Fails (.undefined name) ⟨n, .assign node name v, m'⟩ := by
      refine ⟨m', Ending.map_eq_failed_iff.mpr ?_⟩
      unfold Run.assign
      dsimp only
      rw [htarget]
    have hhops := hready.hops_of_fails (.inr ⟨v, rfl⟩) hfails
    dsimp only at hhops
    rw [hhops] at htarget
    dsimp only at htarget
    rw [Scopes.owner?_of_root hready.fits.outermost] at htarget
    refine .inr ⟨⟨v, hv⟩, rfl, hhops, fun hname => ?_⟩
    rw [if_pos (Scopes.mem_names_iff.mp hname)] at htarget
    cases htarget

end Setting

namespace Session

variable {clock : Nat → Float} {history : List (Session × Step)} {s s' : Session}

theorem mem_globalNames {name : String} : name ∈ s.globalNames ↔ name ∈ s.machine.globalNames := by
  unfold globalNames Scopes.sortedNames
  exact (List.mergeSort_perm _ _).mem_iff

/-- The globals of the second session are those of the first one and these names. -/
def Adds (names : List Token) (s s' : Session) : Prop :=
  ∀ name, name ∈ s'.globalNames ↔ name ∈ s.globalNames ∨ name ∈ names.map Token.lexeme

theorem adds_iff {names : List Token} : s.Adds names s' ↔ s.machine.Adds names s'.machine := by
  simp only [Adds, Machine.Adds, mem_globalNames]

theorem Sound.evaluate_adds (hs : Sound history s) (fuel : Nat) (source : String) :
    s.Adds [] (s.evaluate fuel source).2 := by
  rw [adds_iff]
  cases he : expression? source with
  | none =>
      obtain ⟨_, hsame⟩ := evaluate_of_expression?_eq_none (s := s) he fuel
      rw [hsame]
      exact .of_scopes rfl
  | some e =>
      have hready := (hs.start_evaluate he fuel).2
      rw [evaluate_of_expression? he, evaluateExpr]
      dsimp only
      cases hrun : Lox.evaluate fuel (e.numbered s.nextNode).1 s.machine with
      | done v m | failed fault m =>
          exact hready.adds_nothing (by rw [Moment.Left, Moment.ending, hrun]; rfl) rfl
      | unfinished => exact .of_scopes rfl

theorem run_adds_nothing (fuel : Nat) {source : String}
    (h : s.unit? source = none ∨ (s.run fuel source).1 = .unfinished) :
    s.Adds [] (s.run fuel source).2 := by
  rw [adds_iff]
  cases hunit : s.unit? source with
  | none =>
      obtain ⟨_, -, hsame | hnumbered⟩ := run_of_unit?_eq_none hunit fuel
      · rw [hsame]
        exact .of_scopes rfl
      · rw [hnumbered]
        exact .of_scopes rfl
  | some unit =>
      obtain ⟨program, s'⟩ := unit
      have hcut := h.resolve_left (by simp [hunit])
      obtain ⟨_, -, -, -, rfl⟩ := unit?_eq_some_iff.mp hunit
      rw [run_of_unit? hunit] at hcut ⊢
      generalize Machine.interpret fuel program _ = ending at hcut ⊢
      cases ending with
      | done | failed => cases hcut
      | unfinished => exact .of_scopes rfl

/-- A unit that ends adds the names of those of its declarations that were executed. -/
theorem Sound.run_adds (hs : Sound history s) {source : String}
    (hunit : s.unit? source = some (program, s')) {fuel : Nat}
    (hends : (s.run fuel source).1 ≠ .unfinished) :
    ∃ finished m, Executes fuel program finished s'.machine m ∧
      (s.run fuel source).2 = { s' with machine := m.atRest } ∧
      ((s.run fuel source).1 = .completed → finished = program) ∧
      s.Adds (finished.filterMap Stmt.binds?) (s.run fuel source).2 := by
  obtain ⟨tree, -, -, hreports, -⟩ := unit?_eq_some_iff.mp hunit
  obtain ⟨-, hmachine, -⟩ := unit?_learns hs hunit
  obtain ⟨hs', hready⟩ := hs.start_run hunit fuel
  have hnormal : ∀ flow m, executeAll fuel program s'.machine = .done flow m → flow = .normal :=
    fun _ _ hdone => flow_of_executeAll hreports hdone
  have hrun := run_of_unit? hunit fuel
  rw [hrun] at hends
  obtain ⟨m, hafter, hm⟩ := conclude_interpret hends
  have hleft : (executeAll fuel program s'.machine).machine? = some m := by
    rcases hm with ⟨flow, hm⟩ | ⟨fault, hm⟩ <;> rw [hm] <;> rfl
  obtain ⟨finished, hfinished, hadds, hall⟩ :=
    hready.executeAll_adds (Nat.le_refl fuel) hs'.current hnormal hleft
  refine ⟨finished, m, hfinished, hrun ▸ hafter, fun hcompleted => ?_, ?_⟩
  · obtain ⟨_, _, m', hunit', hdone, -⟩ := exists_of_completed hcompleted
    rw [hunit] at hunit'
    cases hunit'
    exact hall _ _ hdone
  · rw [adds_iff, hrun, hafter]
    rw [hmachine] at hadds
    exact hadds

theorem Sound.placed (hs : Sound history s) {step : Step} (hx : s.Passes step x) :
    x.Placed ((s.program? step).getD []) := by
  obtain ⟨start, hstart, hwithin⟩ := hx
  obtain ⟨_, hready⟩ := hs.ready ⟨start, hstart, .refl⟩
  refine hready.placed hwithin fun _ => ?_
  cases step with
  | run fuel source =>
      obtain ⟨unit, hunit, rfl⟩ := Option.map_eq_some_iff.mp hstart
      rw [program?, hunit]
      exact List.suffix_refl _
  | evaluate fuel source =>
      obtain ⟨e, he, rfl⟩ := Option.map_eq_some_iff.mp hstart
      trivial
  | writeTo sink => cases hstart

/-- In a session that is reached by steps, an evaluation leaves the globals as they are, and so does
a unit that is rejected. One that is accepted adds the names of the top-level declarations that were
executed: all of them, or those before the statement that failed. No other part of a step that ends
adds a global or takes one away, in whatever function or block it stands. An assignment that fails
after its right-hand side leaves the machine as that side left it, and its name is neither resolved
nor a global. -/
theorem globals_declared (h : Reached clock history s) :
    (∀ fuel source, s.Adds [] (s.evaluate fuel source).2) ∧
      (∀ fuel source, s.unit? source = none ∨ (s.run fuel source).1 = .unfinished →
        s.Adds [] (s.run fuel source).2) ∧
      (∀ fuel source program s', s.unit? source = some (program, s') →
        (s.run fuel source).1 ≠ .unfinished →
        ∃ finished m, Executes fuel program finished s'.machine m ∧
          (s.run fuel source).2 = { s' with machine := m.atRest } ∧
          ((s.run fuel source).1 = .completed → finished = program) ∧
          s.Adds (finished.filterMap Stmt.binds?) (s.run fuel source).2) ∧
      (∀ step x m, s.Passes step x → x.Left m → ¬x.Declares ((s.program? step).getD []) →
        x.machine.Adds [] m) ∧
      ∀ step n node name e m fault m',
        s.Passes step ⟨n + 1, .evaluate (.assign node name e), m⟩ →
        Lox.evaluate (n + 1) (.assign node name e) m = .failed fault m' →
        Lox.evaluate n e m = .failed fault m' ∨
          (∃ v, Lox.evaluate n e m = .done v m') ∧ fault = .undefined name ∧
            m'.hops[node]? = none ∧ name.lexeme ∉ m'.globalNames := by
  refine ⟨h.sound.evaluate_adds, fun fuel source hcut => run_adds_nothing fuel hcut,
    fun fuel source program s' hunit hends => h.sound.run_adds hunit hends, ?_, ?_⟩
  · intro step x m hx hleft hdeclares
    obtain ⟨_, hready⟩ := h.sound.ready hx
    exact hready.adds_nothing_of_placed (h.sound.placed hx) hdeclares hleft
  · intro step n node name e m fault m' hx hfails
    obtain ⟨_, hready⟩ := h.sound.ready hx
    exact hready.assign_failed hfails

/-- A unit that fails at an assignment between two declarations. -/
theorem globals_declared_before_fault :
    let s := Session.new fun _ => 0
    let a : Token := ⟨.identifier, "a", 1⟩
    let b : Token := ⟨.identifier, "b", 1⟩
    let unit := Step.run 9 "var a;b=a;var c;"
    s.Adds [] (s.evaluate 9 "clock()").2 ∧ s.Adds [] (s.run 9 "var a").2 ∧
      s.Adds [a] (s.take unit).2 ∧
      ∃ m, s.Passes unit ⟨6, .evaluate (.assign 0 b (.var 1 a)), m⟩ ∧ m.Adds [] m ∧
        Lox.evaluate 6 (.assign 0 b (.var 1 a)) m = .failed (.undefined b) m ∧
        m.hops[0]? = none ∧ "b" ∉ m.globalNames := by
  intro s a b unit
  let c : Token := ⟨.identifier, "c", 1⟩
  let assignment : Expr NodeId := .assign 0 b (.var 1 a)
  let program : List (Stmt NodeId) := [.var a none, .expression assignment, .var c none]
  let s' : Session := ⟨{ Machine.new (fun _ => 0) with hops := (∅ : Hops).merge ∅ }, 2⟩
  let m : Machine := { s'.machine with scopes := s'.machine.scopes.define globalScope "a" .nil }
  have hunit : s.unit? "var a;b=a;var c;" = some (program, s') := by
    refine unit?_eq_some_iff.mpr
      ⟨[.var a none, .expression (.assign () b (.var () a)), .var c none], ?_, rfl, rfl, rfl⟩
    cbv
  have hrejected : s.unit? "var a" = none := by
    have hread : (readProgram "var a").reports.isEmpty = false := by cbv
    simp [unit?, hread]
  have hpasses : s.Passes unit ⟨6, .evaluate assignment, m⟩ := by
    refine ⟨⟨9, .executeAll program, s'.machine⟩, by rw [start?, hunit]; rfl, ?_⟩
    exact .head (.others rfl) (.head .first (.head .expression .refl))
  have hvalue (n : Nat) : Lox.evaluate (n + 1) (.var 1 a) m = .done .nil m := by
    have hfound : m.scopes.get? globalScope a.lexeme = some .nil := by
      rw [Scopes.get?_of_root rfl]
      rfl
    have hhops : m.hops[1]? = none := rfl
    rw [Lox.evaluate, Run.lookUp, hhops]
    dsimp only
    rw [hfound]
  have hassigned (n : Nat) : Lox.evaluate (n + 2) assignment m = .failed (.undefined b) m := by
    have howner : m.scopes.owner? globalScope b.lexeme = none := by
      rw [Scopes.owner?_of_root rfl]
      rfl
    have hhops : m.hops[0]? = none := rfl
    rw [Lox.evaluate, Run.bind_of_done (hvalue n), Run.bind_apply, Run.assign, hhops]
    dsimp only
    rw [howner]
  have hfails (n : Nat) :
      Lox.execute (n + 3) (.expression assignment) m = .failed (.undefined b) m := by
    rw [Lox.execute, Run.bind_apply, hassigned]
  have hends : (s.run 9 "var a;b=a;var c;").1 ≠ .unfinished := by
    have hbody : Lox.executeAll 9 program s'.machine = .failed (.undefined b) m := by
      change Lox.executeAll 8 [.expression assignment, .var c none] m = _
      rw [Lox.executeAll, Run.bind_apply, hfails]
    rw [run_of_unit? hunit, Machine.interpret, hbody]
    exact fun h => by cases h
  have hexecutes : Executes 9 program [.var a none] s'.machine m := .cons rfl (.fails (hfails 6))
  obtain ⟨hevaluate, hcut, hrun, hother, hassign⟩ :=
    globals_declared (.new : Reached (fun _ => 0) [] s)
  obtain ⟨finished, m', hfinished, -, -, hadds⟩ := hrun 9 _ program s' hunit hends
  obtain ⟨rfl, -⟩ := hfinished.unique hexecutes
  refine ⟨hevaluate 9 _, hcut 9 _ (.inl hrejected), hadds, m, hpasses, ?_, hassigned 4, ?_⟩
  · exact hother unit _ m hpasses (by rw [Moment.Left, Moment.ending, hassigned]; rfl) fun h => h.2
  · rcases hassign unit 5 0 b (.var 1 a) m _ m hpasses (hassigned 4) with hcannot | hassign
    · cases (hvalue 4).symm.trans hcannot
    · exact hassign.2.2

end Session

end Lox
