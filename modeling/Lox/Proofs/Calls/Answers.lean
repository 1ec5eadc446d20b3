import Lox.Proofs.Calls.Activations
import Lox.Proofs.Calls.Depth
import Lox.Proofs.Receivers.Construction

/-!
What calls answer, and where runs return.

In an accepted program no statement outside of functions returns. In a function the first `return`
ends what the function comes to, and its value is that of the call, unless the function is an
initializer, which answers its receiver.
-/

namespace Lox

open Resolution Run

variable {n : Nat} {m m' : Machine} {b c x y : Moment} {v : Value} {vs : List Value} {r : Routine}

/-- The statement is one of the program, or further in, but not in a function. -/
inductive Stmt.Outside (program : List (Stmt NodeId)) : Stmt NodeId → Prop
  | item {s : Stmt NodeId} (hs : s ∈ program) : Outside program s
  | block {s : Stmt NodeId} {ss : List (Stmt NodeId)} (h : Outside program (.block ss))
      (hs : s ∈ ss) : Outside program s
  | consequent {e : Expr NodeId} {s : Stmt NodeId} {other : Option (Stmt NodeId)}
      (h : Outside program (.branch e s other)) : Outside program s
  | alternative {e : Expr NodeId} {s other : Stmt NodeId}
      (h : Outside program (.branch e s (some other))) : Outside program other
  | loop {e : Expr NodeId} {s : Stmt NodeId} (h : Outside program (.loop e s)) : Outside program s

section

variable {known : List String} {S : Surroundings} {s : Stmt NodeId}
  {ss program : List (Stmt NodeId)}

theorem exists_quiet_of_mem (hS : S.role = none) (hquiet : Quiet known (Stmt.occurrencesAll S ss))
    (hs : s ∈ ss) : ∃ S : Surroundings, S.role = none ∧ Quiet known (s.occurrences S) := by
  induction ss generalizing S with
  | nil => cases hs
  | cons first ss ih =>
      obtain ⟨hfirst, hothers⟩ := quiet_append.mp hquiet
      rcases List.mem_cons.mp hs with rfl | hs
      · exact ⟨S, hS, hfirst⟩
      · exact ih ((Surroundings.role_declareAll _).trans hS) hothers hs

theorem Stmt.Outside.exists_quiet (h : Stmt.Outside program s)
    (hquiet : Quiet known (Stmt.occurrencesAll .outermost program)) :
    ∃ S : Surroundings, S.role = none ∧ Quiet known (s.occurrences S) := by
  induction h with
  | item hs => exact exists_quiet_of_mem rfl hquiet hs
  | block _ hs ih =>
      obtain ⟨S, hS, hblock⟩ := ih
      exact exists_quiet_of_mem (S := S.inBlock) hS hblock hs
  | @consequent e s other _ ih =>
      obtain ⟨S, hS, hbranch⟩ := ih
      cases other with
      | none => exact ⟨S, hS, (quiet_append.mp hbranch).2⟩
      | some other => exact ⟨S, hS, (quiet_append.mp (quiet_append.mp hbranch).1).2⟩
  | @alternative e s other _ ih =>
      obtain ⟨S, hS, hbranch⟩ := ih
      exact ⟨S.declareAll s.declared, (Surroundings.role_declareAll _).trans hS,
        (quiet_append.mp hbranch).2⟩
  | loop _ ih =>
      obtain ⟨S, hS, hloop⟩ := ih
      exact ⟨S, hS, (quiet_append.mp hloop).2⟩

end

/-- The statements are executed one after the other, and none of them returns. -/
inductive Completes (n : Nat) : List (Stmt NodeId) → Machine → Machine → Prop
  | nil {m : Machine} : Completes n [] m m
  | cons {s : Stmt NodeId} {ss : List (Stmt NodeId)} {m m₁ m' : Machine}
      (hs : execute n s m = .done .normal m₁) (hss : Completes n ss m₁ m') :
      Completes n (s :: ss) m m'

theorem completes_of_executeAll {k : Nat} {ss : List (Stmt NodeId)} (hle : k ≤ n)
    (h : executeAll k ss m = .done .normal m') : Completes n ss m m' := by
  induction ss generalizing k m with
  | nil =>
      cases k with
      | zero => cases h
      | succ k =>
          cases h
          exact .nil
  | cons s ss ih =>
      obtain ⟨k, m₁, rfl, hs, hss⟩ := exists_of_executeAll_cons h
      have hle : k ≤ n := Nat.le_of_succ_le hle
      have hmore := execute_below_of_le hle s m (by simp [hs])
      exact .cons (hmore.trans hs) (ih hle hss)

/-- The first moment is a call of the routine, whose body begins at the second one. -/
def Moment.Activates (c : Moment) (r : Routine) (b : Moment) : Prop :=
  ∃ call callee run vs, Part c call ∧ call.task.isCall ∧ Part call callee ∧ Part callee run ∧
    run.task = .runRoutine r vs ∧ Part run b

theorem Moment.Activates.isStatement (h : c.Activates r b) : b.task.isStatement := by
  obtain ⟨_, _, ⟨_, _, _⟩, _, -, -, -, -, rfl, hbody⟩ := h
  cases hbody
  rfl

theorem Moment.activates_function {m₁ m₂ : Machine} {callee : Expr NodeId} {paren : Token}
    {es : List (Expr NodeId)} {f : Closure} (h : evaluate (n + 3) callee m = .done (.function f) m₁)
    (hs : evaluateAll (n + 3) es m₁ = .done vs m₂)
    (hcheck : checkCall (.function f) vs.length paren m₂ = .done () m₂) :
    Activates ⟨n + 4, .evaluate (.call callee paren es), m⟩ f.routine
      ⟨n, .executeAll f.routine.declaration.body, m₂.countCall.enterCall f.routine vs⟩ :=
  ⟨_, _, _, _, .call h hs, rfl, .invoke hcheck, .function, rfl, .body⟩

/-- A call answers what its callee does. -/
theorem exists_ending_of_called {call callee : Moment} (hcall : Part c call)
    (hcalled : call.task.isCall) (hcallee : Part call callee) (h : callee.ending = .done [v] m) :
    ∃ m', c.ending = .done [v] m' := by
  have hanswer := hcallee.ending_of_isCall hcalled
  rw [h, Ending.leaving] at hanswer
  cases hcall with
  | call hcallee' hs =>
      obtain ⟨_, hvalue, ⟨⟩⟩ := Ending.map_eq_done_iff.mp hanswer
      refine ⟨m.endCall, ?_⟩
      rw [Moment.ending, evaluate, bind_of_done hcallee', bind_of_done hs, hvalue]
      rfl
  | _ => cases hcalled

/-- The value that a call answers, unless it is one of an initializer. -/
def Flow.answer : Flow → Value
  | .normal => .nil
  | .returned v => v

theorem exists_runRoutine_of_done {flow : Flow}
    (h : executeAll n r.declaration.body (m.enterCall r vs) = .done flow m') :
    ∃ m'', runRoutine (n + 1) r vs m =
      .done (if r.initializes then (m'.scopes.getAt? r.scope 0 thisName).getD .nil
        else flow.answer) m'' := by
  refine ⟨{ m' with current := m.current }, ?_⟩
  rw [runRoutine_succ, bind_of_done (inScope_of_done h)]
  cases flow <;> cases hr : r.initializes <;> simp [result, hr, Flow.answer]

namespace Session

variable {clock : Nat → Float} {history : List (Session × Step)} {s : Session} {step : Step}

/-- The scope around the routine was made to hold the instance, as the receiver of a method. -/
def Receives (history : List (Session × Step)) (r : Routine) (i : Identity) (c : Class) : Prop :=
  ∃ n method m, Occurs history ⟨n, .bindMethod method (.instance_ i c), m⟩ ∧
    m.scopes.size = r.scope

/-- The call is done, with the value that is given or, for an initializer, with its receiver. -/
def Answers (history : List (Session × Step)) (c : Moment) (r : Routine) (v : Value) : Prop :=
  ∃ w m, c.ending = .done [w] m ∧
    if r.initializes then ∃ i cl, Receives history r i cl ∧ w = .instance_ i cl else w = v

theorem Occurs.exists_instance (h : Occurs history ⟨n, .bindMethod r v, m⟩) :
    ∃ i cl, v = .instance_ i cl := by
  obtain ⟨s, step, -, start, hstart, hwithin⟩ := h
  rcases Relation.ReflTransGen.cases_tail hwithin with rfl | ⟨x, -, hpart⟩
  · cases step with
    | run fuel source | evaluate fuel source =>
        obtain ⟨_, -, ⟨⟩⟩ := Option.map_eq_some_iff.mp hstart
    | writeTo sink => cases hstart
  · cases hpart <;> exact ⟨_, _, rfl⟩

theorem Reached.exists_receives (h : Reached clock history s) (hr : r.initializes) {flow : Flow}
    (hx : Occurs ((s, step) :: history) ⟨n + 1, .runRoutine r vs, m⟩)
    (hbody : executeAll n r.declaration.body (m.enterCall r vs) = .done flow m') :
    ∃ i cl, Receives ((s, step) :: history) r i cl ∧
      (m'.scopes.getAt? r.scope 0 thisName).getD .nil = .instance_ i cl := by
  obtain ⟨v, hv⟩ := Option.isSome_iff_exists.mp (h.isSome_this hr hx hbody)
  have hends := (h.admits_receivers (hx.part .body)).ends
  rw [Discipline.ends_executeAll_iff, hbody] at hends
  obtain ⟨k, method, m₀, hbind, hscope⟩ := hends.2.1.stores.heap.receiver _ _ hv
  obtain ⟨i, cl, rfl⟩ := hbind.exists_instance
  exact ⟨i, cl, ⟨k, method, m₀, hbind, hscope⟩, congrArg (fun found => found.getD .nil) hv⟩

/-- A call whose body is done is done. -/
theorem Reached.answers (h : Reached clock history s) (hc : Occurs ((s, step) :: history) c)
    (hactivates : c.Activates r b) (flow : Flow) (hb : b.ending = .done flow.values m) :
    Answers ((s, step) :: history) c r flow.answer := by
  obtain ⟨call, callee, ⟨_, task, m₀⟩, vs, hcall, hcalled, hcallee, hrun, rfl, hbody⟩ := hactivates
  have hcallee' := (hc.part hcall).part hcallee
  have hrun' := hcallee'.part hrun
  cases hbody with
  | @body n =>
      obtain ⟨flow', hdone, hflow⟩ := Ending.map_eq_done_iff.mp hb
      obtain rfl : flow' = flow := by
        cases flow <;> cases flow' <;> simp_all [Flow.values]
      obtain ⟨m₁, hvalue⟩ := exists_runRoutine_of_done hdone
      cases hrun with
      | @function k _ f =>
          have hending : Moment.ending ⟨n + 2, .invoke (.function f) vs, m₀⟩ = .done [_] m₁ :=
            Ending.map_eq_done_iff.mpr ⟨_, hvalue, rfl⟩
          obtain ⟨m₂, hending⟩ := exists_ending_of_called hcall hcalled hcallee hending
          refine ⟨_, m₂, hending, ?_⟩
          split
          · rename_i hr
            exact h.exists_receives hr hrun' hdone
          · rfl
      | @initializer k m cl method vs hmethod =>
          have hclass : (Discipline.receivers _).Allows m.heap (.class_ cl) :=
            (h.admits_receivers hcallee').task.1
          have hr : method.initializes := (hclass _ _ hmethod).method.2.mpr rfl
          have hending : Moment.ending ⟨n + 2, .invoke (.class_ cl) vs, m⟩ =
              .done [.instance_ m.instances.size cl] m₁ := by
            refine Ending.map_eq_done_iff.mpr ⟨_, ?_, rfl⟩
            rw [invoke_class, hmethod]
            exact bind_of_done hvalue
          obtain ⟨m₂, hending⟩ := exists_ending_of_called hcall hcalled hcallee hending
          refine ⟨_, m₂, hending, ?_⟩
          rw [if_pos hr]
          exact ⟨_, _, ⟨_, _, _, hcallee'.part (.receiver hmethod), rfl⟩, rfl⟩

/-- In an accepted program no statement outside of functions returns, on any machine, so a text that
runs to its end has executed all its statements in order. In a function nothing comes after a
`return` but the evaluation of its value, which is the value of the call. Without a `return` that is
`nil`, and for an initializer it is the receiver. -/
theorem returns_end_calls :
    (∀ globals program, (resolve globals program).reports = [] → ∀ s, Stmt.Outside program s →
      ∀ n m flow m', execute n s m = .done flow m' → flow = .normal) ∧
    (∀ (s : Session) source fuel, (s.run fuel source).1 = .completed →
      ∃ program s' m, s.unit? source = some (program, s') ∧
        Completes fuel program s'.machine m ∧
        (s.run fuel source).2 = { s' with machine := m.atRest }) ∧
    ∀ clock history s step, Reached clock history s → ∀ c r b, Occurs ((s, step) :: history) c →
      c.Activates r b →
        (∀ before y after v, b.activity = before ++ y :: after → y.ReturnsWith v →
          y :: after = y.activity ∧ (∀ z ∈ after, ¬z.task.isStatement) ∧
            Answers ((s, step) :: history) c r v) ∧
        (∀ m, b.ending = .done [] m → Answers ((s, step) :: history) c r .nil) ∧
        ∀ v m, b.ending = .done [v] m → ∃ y ∈ b.activity, y.ReturnsWith v := by
  refine ⟨?_, ?_, ?_⟩
  · intro globals program hreports s hs n m flow m' h
    obtain ⟨S, hS, hquiet⟩ := hs.exists_quiet (quiet_of_resolve hreports)
    exact (goesOn n).execute hS hquiet h
  · intro s source fuel h
    obtain ⟨program, s', m, hunit, hrun, hleft⟩ := exists_of_completed h
    exact ⟨program, s', m, hunit, completes_of_executeAll (Nat.le_refl _) hrun, hleft⟩
  · intro clock history s step h c r b hc hactivates
    have hb : b.task.isStatement := hactivates.isStatement
    refine ⟨fun before y after v hsplit hreturns => ?_, fun m hdone => ?_, fun v m hdone => ?_⟩
    · obtain ⟨m, hending⟩ := hreturns.exists_ending
      obtain ⟨hlast, m', hbody⟩ :=
        Moment.activity_of_returned hb hsplit hreturns.isStatement hending
      refine ⟨hlast, hreturns.not_isStatement_of_mem hlast, ?_⟩
      exact h.answers hc hactivates (.returned v) hbody
    · exact h.answers hc hactivates .normal hdone
    · exact Moment.exists_returns hb hdone

/-- A text runs to its end, and a function that would call itself returns before it does. -/
theorem returns_end_calls_of_call :
    (∃ program s' m, (new fun _ => 0).unit? "nil;" = some (program, s') ∧
      Completes 5 program s'.machine m) ∧
    ∃ c r b before y after,
      Occurs [(.new fun _ => 0, .run 20 "\x7bfun f()\x7breturn true;f();\x7df();\x7d")] c ∧
      c.Activates r b ∧ b.activity = before ++ y :: after ∧ y.ReturnsWith (.boolean true) ∧
      (∀ z ∈ after, ¬z.task.isStatement) ∧
      Answers [(.new fun _ => 0, .run 20 "\x7bfun f()\x7breturn true;f();\x7df();\x7d")] c r
        (.boolean true) := by
  let f : Token := ⟨.identifier, "f", 1⟩
  let paren : Token := ⟨.symbol .rightParen, ")", 1⟩
  let word : Token := ⟨.keyword .return_, "return", 1⟩
  let answer : Stmt NodeId := .ret word (some (.literal (.boolean true)))
  let inner : Stmt NodeId := .expression (.call (.var 0 f) paren [])
  let outer : Stmt NodeId := .expression (.call (.var 1 f) paren [])
  let program : List (Stmt NodeId) := [.block [.function ⟨f, [], [answer, inner]⟩, outer]]
  let hops : Hops := ((∅ : Hops).insert 0 1).insert 1 0
  let s' : Session := ⟨{ Machine.new (fun _ => 0) with hops }, 2⟩
  have hunit : (Session.new fun _ => 0).unit? "\x7bfun f()\x7breturn true;f();\x7df();\x7d" =
      some (program, s') := by
    refine unit?_eq_some_iff.mpr ⟨[.block [.function ⟨f, [],
        [.ret ⟨.keyword .return_, "return", 1⟩ (some (.literal (.boolean true))),
          .expression (.call (.var () f) paren [])]⟩,
      .expression (.call (.var () f) paren [])]], ?_, rfl, rfl, rfl⟩
    cbv
  have hstart : (Session.new fun _ => 0).start?
      (.run 20 "\x7bfun f()\x7breturn true;f();\x7df();\x7d") =
        some ⟨20, .executeAll program, s'.machine⟩ := by
    rw [start?, hunit]
    rfl
  let closure : Closure := ⟨0, ⟨⟨f, [], [answer, inner]⟩, 1, false⟩⟩
  let m : Machine :=
    { s'.machine.enterBlock with
      scopes := s'.machine.enterBlock.scopes.define 1 "f" (.function closure)
      fresh := 1 }
  have hcall : Within ⟨20, .executeAll program, s'.machine⟩
      ⟨15, .evaluate (.call (.var 1 f) paren []), m⟩ :=
    .head .first (.head .block (.head (.others rfl) (.head .first (.single .expression))))
  have hoccurs : Occurs [_] _ := ⟨_, _, List.mem_singleton_self _, _, hstart, hcall⟩
  let b : Moment := ⟨11, .executeAll [answer, inner], m.countCall.enterCall closure.routine []⟩
  let y : Moment := ⟨10, .execute answer, b.machine⟩
  let z : Moment := ⟨9, .evaluate (.literal (.boolean true)), b.machine⟩
  have hactivates : Moment.Activates ⟨15, .evaluate (.call (.var 1 f) paren []), m⟩
      closure.routine b := Moment.activates_function rfl rfl rfl
  have hb : b.ownParts = [y] := rfl
  have hy : y.ownParts = [z] := rfl
  have hz : z.ownParts = [] := rfl
  have hactivity : b.activity = [b] ++ y :: [z] := by
    rw [b.activity_eq, hb, List.flatMap_singleton, y.activity_eq, hy, List.flatMap_singleton,
      z.activity_eq, hz]
    rfl
  have hreturns : y.ReturnsWith (.boolean true) := .value rfl
  have hended := (returns_end_calls.2.2 _ _ _ _ .new _ _ _ hoccurs hactivates).1
  obtain ⟨-, hafter, hanswers⟩ := hended _ _ _ _ hactivity hreturns
  have hunit' : (Session.new fun _ => 0).unit? "nil;" =
      some ([.expression (.literal .nil)], ⟨{ Machine.new (fun _ => 0) with hops := ∅ }, 0⟩) := by
    refine unit?_eq_some_iff.mpr ⟨[.expression (.literal .nil)], ?_, rfl, rfl, rfl⟩
    cbv
  have hcompleted : ((new fun _ => 0).run 5 "nil;").1 = .completed := by
    rw [run_of_unit? hunit']
    rfl
  obtain ⟨_, _, _, hread, hcompletes, -⟩ := returns_end_calls.2.1 _ _ _ hcompleted
  exact ⟨⟨_, _, _, hread, hcompletes⟩,
    ⟨_, _, _, _, _, _, hoccurs, hactivates, hactivity, hreturns, hafter, hanswers⟩⟩

end Session

end Lox
