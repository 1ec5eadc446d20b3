import Lox.Proofs.Receivers.Keeping
import Lox.Proofs.Running.Distances

namespace Lox

open Resolution Scoping

namespace Session

variable {clock : Nat → Float} {history : List (Session × Step)} {s : Session} {step : Step}
  {x y : Moment} {r : Routine} {i : Identity} {c : Class}

/-- The routine is that of a method of the instance, as it is obtained from the instance by its name
or, for an initializer, as it is run on an instance that is new. -/
inductive Obtains (history : List (Session × Step)) : Routine → Identity → Class → Prop
  | get {n : Nat} {m m' m'' : Machine} {object : Expr NodeId} {name : Token} {i : Identity}
      {c : Class} {f : Closure} (hx : Occurs history ⟨n + 1, .evaluate (.get object name), m⟩)
      (hobject : Lox.evaluate n object m = .done (.instance_ i c) m')
      (hfield : (m'.instances[i]?).bind (fun fields => fields.find? name.lexeme) = none)
      (hget : Lox.evaluate (n + 1) (.get object name) m = .done (.function f) m'') :
      Obtains history f.routine i c
  | construction {n : Nat} {m : Machine} {c : Class} {vs : List Value} {r : Routine}
      (hx : Occurs history ⟨n + 1, .invoke (.class_ c) vs, m⟩) (hr : c.initializer? = some r) :
      Obtains history { r with scope := m.scopes.size } m.instances.size c

/-- The moment belongs to a call of the routine, or to one of a function that was declared at such a
moment, but not to a call that is made there. -/
inductive Serves (history : List (Session × Step)) (r : Routine) : Moment → Prop
  | call {n : Nat} {vs : List Value} {m : Machine} (hx : Occurs history ⟨n, .runRoutine r vs, m⟩) :
      Serves history r ⟨n, .runRoutine r vs, m⟩
  | part {x y : Moment} (hx : Serves history r x) (hpart : Part x y)
      (hcall : ∀ callee paren vs, y.task ≠ .callValue callee paren vs) : Serves history r y
  | declared {n k : Nat} {d : FunctionDecl NodeId} {m m' : Machine} {vs : List Value}
      (hx : Serves history r ⟨n + 1, .execute (.function d), m⟩)
      (hy : Occurs history ⟨k, .runRoutine ⟨d, m.current, false⟩ vs, m'⟩) :
      Serves history r ⟨k, .runRoutine ⟨d, m.current, false⟩ vs, m'⟩

theorem Obtains.exists_bind (h : Obtains history r i c) :
    ∃ n method m, Occurs history ⟨n, .bindMethod method (.instance_ i c), m⟩ ∧
      r = { method with scope := m.scopes.size } := by
  cases h with
  | @get n m m' m'' object name i c f hx hobject hfield hget =>
      rw [Lox.evaluate, Run.bind_of_done hobject] at hget
      simp only [Run.getProperty, Run.bind_apply, Run.field?, hfield] at hget
      cases hmethod : c.methods.find? name.lexeme with
      | none =>
          rw [hmethod] at hget
          cases hget
      | some method =>
          rw [hmethod] at hget
          cases hget
          exact ⟨n, method, m', hx.part (.method hobject hfield hmethod), rfl⟩
  | @construction n m c vs r hx hr =>
      exact ⟨n, r, m.addInstance, hx.part (.receiver hr), rfl⟩

theorem Serves.occurs (h : Serves history r x) : Occurs history x := by
  induction h with
  | call hx => exact hx
  | part _ hpart _ ih => exact ih.part hpart
  | declared _ hy _ => exact hy

/-- From the second scope one comes out to the first past blocks and calls only. -/
inductive LiesIn (history : List (Session × Step)) (outer : ScopeId) : ScopeId → Prop
  | here : LiesIn history outer outer
  | inner {x : Moment} {kind : FrameKind} (hx : Occurs history x) (hmakes : x.makes? = some kind)
      (hkind : kind ≠ .receiver) (h : LiesIn history outer x.around) :
      LiesIn history outer x.machine.scopes.size

end Session

/-- The scope in which the code of a moment runs, or around the body of the function that is
run. -/
def Moment.StandsIn (x : Moment) (s : ScopeId) : Prop :=
  match x.task with
  | .callValue _ _ _ | .invoke _ _ => False
  | .runRoutine r _ => r.scope = s
  | _ => x.machine.current = s

/-- A part that is no call stands where the whole does, or in the scope that the whole makes. -/
theorem Part.standsIn {x y : Moment} {s : ScopeId} (hpart : Part x y) (hx : x.StandsIn s)
    (hcall : ∀ callee paren vs, y.task ≠ .callValue callee paren vs) :
    y.StandsIn s ∨ ∃ kind, x.makes? = some kind ∧ kind ≠ .receiver ∧ x.around = s ∧
      y.StandsIn x.machine.scopes.size := by
  obtain ⟨fuel, task, m⟩ := x
  obtain ⟨n, rfl⟩ := Nat.exists_eq_succ_of_ne_zero (Nat.ne_zero_of_lt hpart.fuel_lt)
  have hall := allResume n
  cases hpart with
  | right h | undecided h | assign h | arguments h | method h | held h | othersOf h
  | consequent h | alternative h | loopBody h =>
      exact .inl (((hall.evaluate _).of_done h).current.trans hx)
  | others h => exact .inl (((hall.execute _).of_done h).current.trans hx)
  | loopAgain h hv hs =>
      have hcondition := ((hall.evaluate _).of_done h).current
      exact .inl ((((hall.execute _).of_done hs).current.trans hcondition).trans hx)
  | call h hs => exact absurd rfl (hcall _ _ _)
  | block => exact .inr ⟨.block, rfl, by simp, hx, rfl⟩
  | body => exact .inr ⟨.call, rfl, by simp, hx, rfl⟩
  | invoke | function | receiver | initializer => exact hx.elim
  | _ => exact .inl hx

namespace Session

variable {clock : Nat → Float} {history : List (Session × Step)} {s : Session} {step : Step}
  {x y : Moment} {r : Routine} {i : Identity} {c : Class}

/-- What serves an instance lies in the scope that holds it. -/
theorem Serves.exists_liesIn (h : Serves history r x) :
    ∃ scope, x.StandsIn scope ∧ LiesIn history r.scope scope := by
  induction h with
  | call hx => exact ⟨r.scope, rfl, .here⟩
  | @part x y hx hpart hcall ih =>
      obtain ⟨scope, hstands, hlies⟩ := ih
      rcases hpart.standsIn hstands hcall with hsame | ⟨kind, hmakes, hkind, rfl, hinner⟩
      · exact ⟨scope, hsame, hlies⟩
      · exact ⟨_, hinner, .inner hx.occurs hmakes hkind hlies⟩
  | declared hx hy ih =>
      obtain ⟨scope, rfl, hlies⟩ := ih
      exact ⟨_, rfl, hlies⟩

/-- What is known of the references and of the scopes at the moments of a session. -/
structure Knows (W : Setting) (history : List (Session × Step)) : Prop where
  made : ∀ kind scope, W.made kind scope →
    ∃ x, Occurs history x ∧ x.makes? = some kind ∧ x.machine.scopes.size = scope
  site : ∀ site, W.site site → BindReceiver site.frames

theorem knows_setting (history : List (Session × Step)) : Knows (setting history) history where
  made := by
    rintro kind scope ⟨s, step, x, hmem, hx, hmakes, hsize⟩
    exact ⟨x, ⟨s, step, hmem, hx⟩, hmakes, hsize⟩
  site := by
    rintro site ⟨s, step, ⟨fuel, task, m⟩, -, hstart, hsite⟩
    obtain ⟨source, hmarks⟩ := marks_of_start? hstart
    have hspare : SpareReceiver task.marks :=
      fun k hk => (hmarks k hk).1.sparesReceiver (hmarks k hk).2
    cases task with
    | evaluate e => exact Expr.bindReceiver .nil site hsite
    | executeAll ss => exact Stmt.bindReceiver_all .nil ss hspare site hsite
    | _ => cases hsite

theorem Reached.exists_ready (h : Reached clock history s)
    (hx : Occurs ((s, step) :: history) x) :
    ∃ W Γ, Setting.Ready W Γ x ∧ Knows W ((s, step) :: history) := by
  obtain ⟨s', step', hmem, hx⟩ := hx
  obtain ⟨before, hbefore, hsubset⟩ := h.exists_of_mem_cons hmem
  obtain ⟨Γ, hready⟩ := hbefore.sound.ready hx
  have hknows := knows_setting ((s', step') :: before)
  refine ⟨_, Γ, hready, ⟨fun kind scope hmade => ?_, hknows.site⟩⟩
  obtain ⟨x, hx, hmakes⟩ := hknows.made kind scope hmade
  exact ⟨x, hx.mono hsubset, hmakes⟩

/-- The nearest frame of a class body belongs to the scope that a method was bound in, if no other
lies in between. -/
theorem LiesIn.find_this {W : Setting} {Γ : List OpenFrame} {h : Heap} {outer scope : ScopeId}
    {n : Nat} {method : Routine} {receiver : Value} {m : Machine}
    (hlies : LiesIn history outer scope) (hapart : MakeApart history) (hknows : Knows W history)
    (hnonempty : ∀ x, Occurs history x → 0 < x.machine.scopes.size)
    (hmade : h.MadeAt (Occurs history))
    (hbind : Occurs history ⟨n, .bindMethod method receiver, m⟩) (hm : m.scopes.size = outer)
    (hchain : W.Chain h.scopes Γ scope) (hΓ : BindReceiver Γ) (k : Nat) :
    ∃ distance, find thisName true k false (Γ.map OpenFrame.names) = .bound (k + distance) ∧
      h.scopes.ancestor? scope distance = some outer ∧ hasReceiver Γ := by
  induction Γ generalizing scope k with
  | nil =>
      -- no moment makes the outermost scope
      replace hchain : scope = globalScope := hchain
      cases hlies with
      | here =>
          have hpos := hnonempty _ hbind
          rw [hm, hchain] at hpos
          exact absurd hpos (Nat.lt_irrefl 0)
      | inner hx hmakes hkind hlies =>
          have hpos := hnonempty _ hx
          rw [hchain] at hpos
          exact absurd hpos (Nat.lt_irrefl 0)
  | cons F Γ ih =>
      obtain ⟨hF, next, hnext, hchain⟩ := hchain
      obtain ⟨hname, hΓ⟩ := List.forall_mem_cons.mp hΓ
      obtain ⟨x, hx, hmakes, rfl⟩ := hknows.made _ _ hF.made
      have hsome : x.makes?.isSome := by
        rw [hmakes]
        rfl
      generalize hscope : x.machine.scopes.size = scope at hlies
      cases hlies with
      | here =>
          obtain rfl := hapart x _ hx hbind hsome rfl (hscope.trans hm.symm)
          have hkind : F.kind = .receiver := (Option.some.inj hmakes).symm
          rw [if_pos hkind] at hname
          refine ⟨0, ?_, by rw [← hm]; rfl, by simp [hasReceiver, hkind]⟩
          simp [find, hname]
      | @inner y kind hy hkindy hkind hlies =>
          obtain rfl := hapart x y hx hy hsome (by rw [hkindy]; rfl) hscope
          obtain ⟨z, hz, hmakesz, hsize, haround⟩ := hmade.enclosing _ _ hnext
          obtain rfl := hapart x z hx hz hsome hmakesz hsize.symm
          obtain ⟨distance, hfind, hancestor, hhas⟩ := ih (haround ▸ hlies) hchain hΓ (k + 1)
          have hframe : F.kind ≠ .receiver := Option.some.inj (hmakes.symm.trans hkindy) ▸ hkind
          rw [if_neg hframe] at hname
          refine ⟨distance + 1, ?_, ?_, by simp [hasReceiver] at hhas ⊢; exact .inr hhas⟩
          · rw [List.map_cons, find, hname, hfind, Nat.add_assoc, Nat.add_comm 1]
          · rw [Scopes.ancestor?, ← hscope, hnext, Option.bind_some, hancestor]

/-- A scope in which a method was bound holds what it was bound to, and nothing else. -/
theorem MakeApart.eq_of_own? {h : Heap} {n : Nat} {method : Routine} {receiver v : Value}
    {m : Machine} (hapart : MakeApart history) (hmade : h.MadeAt (Occurs history))
    (hbind : Occurs history ⟨n, .bindMethod method receiver, m⟩)
    (hv : h.scopes.own? m.scopes.size thisName = some v) : v = receiver := by
  obtain ⟨n', method', m', hbind', hsize⟩ := hmade.receiver _ _ hv
  have heq := hapart _ _ hbind' hbind rfl rfl hsize
  cases heq
  rfl

/-- Code that serves an instance has it for its receiver. -/
theorem Reached.evaluate_this (h : Reached clock history s)
    (hr : Obtains ((s, step) :: history) r i c) {n : Nat} {node : NodeId} {keyword : Token}
    {m : Machine}
    (hx : Serves ((s, step) :: history) r ⟨n + 1, .evaluate (.this node keyword), m⟩) :
    Lox.evaluate (n + 1) (.this node keyword) m = .done (.instance_ i c) m := by
  obtain ⟨k, method, m₀, hbind, rfl⟩ := hr.exists_bind
  have hapart := h.makeApart.cons h step
  have hadmits := h.admits_receivers hx.occurs
  have hmade : m.heap.MadeAt (Occurs ((s, step) :: history)) := hadmits.keeps.stores.heap
  have hspelled : keyword.lexeme = thisName := hadmits.task _ List.mem_cons_self
  obtain ⟨W, Γ, hready, hknows⟩ := h.exists_ready hx.occurs
  obtain ⟨hchain, hsites⟩ := hready.task
  have hsite : W.site ⟨node, keyword, .receiver, Γ⟩ := hsites.sites _ (List.mem_singleton_self _)
  have hnonempty : ∀ y, Occurs ((s, step) :: history) y → 0 < y.machine.scopes.size := by
    intro y hy
    obtain ⟨W', Γ', hready', -⟩ := h.exists_ready hy
    exact hready'.fits.nonempty
  obtain ⟨scope, hstands, hlies⟩ := hx.exists_liesIn
  replace hstands : m.current = scope := hstands
  subst hstands
  -- The text tells how far out the frame of the class is, and the machine finds the scope there in
  -- which the method was bound.
  obtain ⟨distance, hfind, hancestor, hhas⟩ := hlies.find_this hapart hknows hnonempty hmade hbind
    rfl hchain (hknows.site _ hsite) 0
  have hdistance : Site.distance? ⟨node, keyword, .receiver, Γ⟩ = some distance := by
    simp [Site.distance?, hhas, hspelled, hfind]
  have hhop : m.hops[node]? = some distance := (hready.fits.hops _ hsite).trans hdistance
  obtain ⟨scope, hscope, hbound⟩ := hready.fits.ancestor? hsite hchain hhop
  obtain rfl := Option.some.inj (hancestor.symm.trans hscope)
  obtain ⟨v, hv⟩ := Option.isSome_iff_exists.mp (hbound (by simp))
  rw [show Token.lexeme _ = thisName from hspelled] at hv
  obtain rfl := hapart.eq_of_own? hmade hbind hv
  have hfound : m.scopes.getAt? m.current distance keyword.lexeme = some (.instance_ i c) := by
    rw [Scopes.getAt?, hscope, hspelled]
    exact hv
  rw [Lox.evaluate, Run.lookUp, hhop]
  dsimp only
  rw [hfound]

end Session

end Lox
