import Lox.Proofs.Likeness.Endings

namespace Lox.Correspondence

open Resolution

inductive FlowAlike (C : Correspondence) (ω : Plan) : Flow → Flow → Prop
  | normal : FlowAlike C ω .normal .normal
  | returned {v v' : Value} (h : C.ValueAlike ω v v') :
      FlowAlike C ω (.returned v) (.returned v')

/-- All runs with this much fuel end alike. -/
structure Simulates (C : Correspondence) (n : Nat) : Prop where
  evaluate : ∀ {ω : Plan} {Δ : List Bool} {s : ScopeId} {m m' : Machine} {e e' : Expr NodeId},
    C.Matches ω m m' → m.current = s → ω.Leads Δ s → Expr.Alike C.likeness Δ e e' →
      Moment.Sure ⟨n, .evaluate e, m⟩ →
      C.EndsAlike ω s C.ValueAlike (Lox.evaluate n e m) (Lox.evaluate n e' m')
  evaluateAll : ∀ {ω : Plan} {Δ : List Bool} {s : ScopeId} {m m' : Machine}
    {es es' : List (Expr NodeId)},
    C.Matches ω m m' → m.current = s → ω.Leads Δ s → Expr.AlikeAll C.likeness Δ es es' →
      Moment.Sure ⟨n, .evaluateAll es, m⟩ →
      C.EndsAlike ω s (fun ω => List.Forall₂ (C.ValueAlike ω)) (Lox.evaluateAll n es m)
        (Lox.evaluateAll n es' m')
  callValue : ∀ {ω : Plan} {s : ScopeId} {m m' : Machine} {callee callee' : Value}
    {paren paren' : Token} {vs vs' : List Value},
    C.Matches ω m m' → m.current = s → C.ValueAlike ω callee callee' → C.token paren paren' →
      List.Forall₂ (C.ValueAlike ω) vs vs' → Moment.Sure ⟨n, .callValue callee paren vs, m⟩ →
      C.EndsAlike ω s C.ValueAlike (Lox.callValue n callee paren vs m)
        (Lox.callValue n callee' paren' vs' m')
  invoke : ∀ {ω : Plan} {s : ScopeId} {m m' : Machine} {callee callee' : Value}
    {vs vs' : List Value},
    C.Matches ω m m' → m.current = s → C.ValueAlike ω callee callee' →
      List.Forall₂ (C.ValueAlike ω) vs vs' → Moment.Sure ⟨n, .invoke callee vs, m⟩ →
      C.EndsAlike ω s C.ValueAlike (Lox.invoke n callee vs m) (Lox.invoke n callee' vs' m')
  runRoutine : ∀ {ω : Plan} {s : ScopeId} {m m' : Machine} {r r' : Routine} {vs vs' : List Value},
    C.Matches ω m m' → m.current = s → C.RoutineAlike ω id r r' →
      List.Forall₂ (C.ValueAlike ω) vs vs' → Moment.Sure ⟨n, .runRoutine r vs, m⟩ →
      C.EndsAlike ω s C.ValueAlike (Lox.runRoutine n r vs m) (Lox.runRoutine n r' vs' m')
  execute : ∀ {ω : Plan} {Δ : List Bool} {s : ScopeId} {m m' : Machine} {st st' : Stmt NodeId},
    C.Matches ω m m' → m.current = s → ω.Leads Δ s → Stmt.Alike C.likeness Δ st st' →
      Moment.Sure ⟨n, .execute st, m⟩ →
      C.EndsAlike ω s C.FlowAlike (Lox.execute n st m) (Lox.execute n st' m')
  executeAll : ∀ {ω : Plan} {Δ : List Bool} {s : ScopeId} {m m' : Machine}
    {ss ss' : List (Stmt NodeId)},
    C.Matches ω m m' → m.current = s → ω.Leads Δ s → Stmt.AlikeAll C.likeness Δ ss ss' →
      Moment.Sure ⟨n, .executeAll ss, m⟩ →
      C.EndsAlike ω s C.FlowAlike (Lox.executeAll n ss m) (Lox.executeAll n ss' m')

variable {C : Correspondence} {ω : Plan} {Δ : List Bool} {s : ScopeId} {m m' : Machine} {n : Nat}
  {v v' : Value}

theorem Matches.bind (h : C.Matches ω m m') {r r' : Routine} {receiver receiver' : Value}
    (hr : C.RoutineAlike ω (false :: ·) r r') (hreceiver : C.ValueAlike ω receiver receiver') :
    ∃ ω', ω <+: ω' ∧ C.Matches ω' (m.bind r receiver) (m'.bind r' receiver') ∧
      C.RoutineAlike ω' id { r with scope := m.scopes.size }
        { r' with scope := m'.scopes.size } := by
  obtain ⟨hscope, hinitializes, Δ, hleads, hdeclaration⟩ := hr
  have hsize : m'.scopes.size = m.scopes.size := h.size'.trans h.size.symm
  have hω : ω <+: ω ++ [⟨false, some r.scope⟩] := List.prefix_append _ _
  have hseat : (ω ++ [⟨false, some r.scope⟩])[m.scopes.size]? = some ⟨false, some r.scope⟩ := by
    rw [h.size, List.getElem?_concat_length]
  have hdefined := (h.push hleads false).define hseat
    (spelled_this C false) (hreceiver.mono hω)
  refine ⟨_, hω, ?_, hsize, hinitializes, false :: Δ, ⟨r.scope, hseat, hleads.mono hω⟩,
    hdeclaration⟩
  have hfresh := hdefined.withFresh
  unfold Machine.bind
  rw [hscope, hsize]
  exact hfresh

theorem bindMethod_alike (h : C.Matches ω m m') (hcurrent : m.current = s) {r r' : Routine}
    {receiver receiver' : Value} (hr : C.RoutineAlike ω (false :: ·) r r')
    (hreceiver : C.ValueAlike ω receiver receiver') :
    C.EndsAlike ω s (fun ω f f' => C.ValueAlike ω (.function f) (.function f'))
      (Run.bindMethod r receiver m) (Run.bindMethod r' receiver' m') := by
  obtain ⟨ω', hω, hmatches, hbound⟩ := h.bind hr hreceiver
  rw [Run.bindMethod_apply, Run.bindMethod_apply]
  exact .ended hω hmatches hcurrent (.function h.fresh hbound)

theorem getProperty_alike (h : C.Matches ω m m') (hcurrent : m.current = s)
    {object object' : Value} {name name' : Token} (hobject : C.ValueAlike ω object object')
    (hname : C.token name name') :
    C.EndsAlike ω s C.ValueAlike (Run.getProperty object name m)
      (Run.getProperty object' name' m') := by
  have hlexeme := C.lexeme_eq hname
  cases hobject with
  | @instance_ inst c c' hc =>
      have hfield := h.fields inst name.lexeme
      have hmethod := hc.methods name.lexeme
      simp only [Run.getProperty, Run.bind_apply, Run.field?, hlexeme]
      generalize (m.instances[inst]?.bind fun fields => fields.find? name.lexeme) = found at hfield
      generalize (m'.instances[inst]?.bind fun fields => fields.find? name.lexeme) = found'
        at hfield
      cases hfield with
      | some hv => exact EndsAlike.done h hcurrent hv
      | none =>
          generalize c.methods.find? name.lexeme = method at hmethod
          generalize c'.methods.find? name.lexeme = method' at hmethod
          cases hmethod with
          | none => exact EndsAlike.failAt h hname _
          | some hr =>
              have hbound := bindMethod_alike h hcurrent hr (.instance_ inst hc)
              refine hbound.bind ?_
              intro ω' f f' m₁ m₁' _ hmatches hcurrent _ hf
              exact EndsAlike.done hmatches hcurrent hf
  | _ => exact EndsAlike.failAt h hname _

theorem defineHere_alike (h : C.Matches ω m m') (hcurrent : m.current = s) (hchain : ω.Leads Δ s)
    {name name' : Token} (hname : C.Spelled (Δ.headD false) name.lexeme name'.lexeme)
    (hv : C.ValueAlike ω v v') :
    C.EndsAlike ω s (fun _ _ _ => True) (Run.defineHere name v m)
      (Run.defineHere name' v' m') := by
  subst hcurrent
  obtain ⟨outer, hseat⟩ := hchain.exists_seat h.root
  have hdefined := h.define hseat hname hv
  unfold Run.defineHere
  rw [h.current]
  exact EndsAlike.done hdefined rfl trivial

theorem makeFunction_alike (h : C.Matches ω m m') (hcurrent : m.current = s)
    (hchain : ω.Leads Δ s) {d d' : FunctionDecl NodeId}
    (hd : FunctionDecl.Alike C.likeness Δ d d') :
    C.EndsAlike ω s C.ValueAlike (Run.makeFunction d m) (Run.makeFunction d' m') := by
  subst hcurrent
  exact EndsAlike.done h.withFresh rfl
    (.function h.fresh ⟨h.current, rfl, Δ, hchain, hd⟩)

theorem methods_alike {table table' : Bindings Routine} (hchain : ω.Leads Δ s)
    {ds ds' : List (FunctionDecl NodeId)}
    (h : FunctionDecl.AlikeAll C.likeness (false :: Δ) ds ds')
    (htable : ∀ name, Option.Rel (C.RoutineAlike ω (false :: ·)) (table.find? name)
      (table'.find? name)) (name : String) :
    Option.Rel (C.RoutineAlike ω (false :: ·))
      ((ds.foldl (fun table method => table.insert method.name.lexeme
        ⟨method, s, method.name.lexeme = initializerName⟩) table).find? name)
      ((ds'.foldl (fun table method => table.insert method.name.lexeme
        ⟨method, s, method.name.lexeme = initializerName⟩) table').find? name) := by
  induction ds generalizing ds' table table' with
  | nil =>
      cases h
      exact htable name
  | cons d ds ih =>
      cases h with
      | @cons _ _ d' _ ds' hd hds =>
          rw [List.foldl_cons, List.foldl_cons]
          refine ih hds ?_
          intro other
          have hlexeme := declaration_name hd
          rw [Bindings.find?_insert, Bindings.find?_insert, hlexeme]
          split
          · exact .some ⟨rfl, rfl, Δ, hchain, hd⟩
          · exact htable other

theorem makeClass_alike (h : C.Matches ω m m') (hcurrent : m.current = s) (hchain : ω.Leads Δ s)
    {name name' : Token} (hname : name'.lexeme = name.lexeme) {ds ds' : List (FunctionDecl NodeId)}
    (hds : FunctionDecl.AlikeAll C.likeness (false :: Δ) ds ds') :
    C.EndsAlike ω s C.ValueAlike (Run.makeClass name ds m) (Run.makeClass name' ds' m') := by
  subst hcurrent
  refine EndsAlike.done h.withFresh rfl (.class_ ⟨h.fresh, hname, ?_⟩)
  rw [h.current]
  exact methods_alike hchain hds fun _ => .none

theorem Matches.defineAll {params params' : List Token} {vs vs' : List Value} {seat : Seat}
    (h : C.Matches ω m m') (hs : ω[s]? = some seat)
    (hparams : List.Forall₂ (fun t t' => C.Spelled seat.mark t.lexeme t'.lexeme) params params')
    (hvs : List.Forall₂ (C.ValueAlike ω) vs vs') :
    C.Matches ω { m with scopes := m.scopes.defineAll s params vs }
      { m' with scopes := m'.scopes.defineAll s params' vs' } := by
  induction hparams generalizing m m' vs vs' with
  | nil => exact h
  | cons hparam _ ih =>
      cases hvs with
      | nil => exact h
      | cons hv hvs => exact ih (h.define hs hparam hv) hvs

theorem result_alike (h : C.Matches ω m m') (hcurrent : m.current = s) {r r' : Routine}
    (hr : C.RoutineAlike ω id r r') {flow flow' : Flow} (hflow : C.FlowAlike ω flow flow') :
    C.EndsAlike ω s C.ValueAlike (Run.result r flow m) (Run.result r' flow' m') := by
  obtain ⟨hscope, hinitializes, Δ, hleads, -⟩ := hr
  unfold Run.result
  rw [hinitializes, hscope]
  split
  · obtain ⟨outer, hseat⟩ := hleads.exists_seat h.root
    have hfound := h.bound r.scope _ hseat thisName thisName (spelled_this C _)
    simp only [Scopes.getAt?, Scopes.ancestor?, Option.bind_some]
    refine EndsAlike.done h hcurrent ?_
    generalize m.scopes.own? r.scope thisName = found at hfound
    generalize m'.scopes.own? r.scope thisName = found' at hfound
    cases hfound with
    | some hv => exact hv
    | none => exact .nil
  · cases hflow with
    | returned hv => exact EndsAlike.done h hcurrent hv
    | normal => exact EndsAlike.done h hcurrent .nil

theorem checkCall_alike (h : C.Matches ω m m') (hcurrent : m.current = s)
    {callee callee' : Value} (hcallee : C.ValueAlike ω callee callee') (count : Nat)
    {paren paren' : Token} (hparen : C.token paren paren') :
    C.EndsAlike ω s (fun _ _ _ => True) (Run.checkCall callee count paren m)
      (Run.checkCall callee' count paren' m') := by
  unfold Run.checkCall
  rw [hcallee.arity?, h.depth]
  split
  · exact EndsAlike.failAt h hparen _
  · split
    · exact EndsAlike.failAt h hparen _
    · split
      · exact EndsAlike.failAt h hparen _
      · exact EndsAlike.done h hcurrent trivial

theorem evaluate_alike (ih : C.Simulates n) {e e' : Expr NodeId} (h : C.Matches ω m m')
    (hcurrent : m.current = s) (hchain : ω.Leads Δ s) (he : Expr.Alike C.likeness Δ e e')
    (hsure : Moment.Sure ⟨n + 1, .evaluate e, m⟩) :
    C.EndsAlike ω s C.ValueAlike (evaluate (n + 1) e m) (evaluate (n + 1) e' m') := by
  cases he with
  | literal => exact EndsAlike.done h hcurrent (.ofLiteral _)
  | grouping he => exact ih.evaluate h hcurrent hchain he (hsure.part .grouping)
  | unary hoperator he =>
      refine (ih.evaluate h hcurrent hchain he (hsure.part .operand)).bind ?_
      intro ω' v v' m₁ m₁' _ hmatches hcurrent _ hv
      rw [C.kind_eq hoperator]
      exact .ofExcept hmatches hcurrent hoperator (unary_alike _ hv)
  | binary ha hoperator hb =>
      refine (ih.evaluate h hcurrent hchain ha (hsure.part .left)).bind ?_
      intro ω₁ v v' m₁ m₁' hω₁ hmatches₁ hcurrent₁ hdone hv
      refine (ih.evaluate hmatches₁ hcurrent₁ (hchain.mono hω₁) hb
        (hsure.part (.right hdone))).bind ?_
      intro ω₂ u u' m₂ m₂' hω₂ hmatches₂ hcurrent₂ _ hu
      rw [C.kind_eq hoperator]
      exact .ofExcept hmatches₂ hcurrent₂ hoperator (binary_alike _ (hv.mono hω₂) hu)
  | @logical operator operator' _ _ _ _ ha hoperator hb =>
      refine (ih.evaluate h hcurrent hchain ha (hsure.part .deciding)).bind ?_
      intro ω₁ v v' m₁ m₁' hω₁ hmatches₁ hcurrent₁ hdone hv
      have hdecides : Operator.decides operator'.kind v' = Operator.decides operator.kind v := by
        rw [Operator.decides, Operator.decides, C.kind_eq hoperator, hv.truthy]
      rw [hdecides]
      cases hdecided : Operator.decides operator.kind v with
      | true => exact EndsAlike.done hmatches₁ hcurrent₁ hv
      | false =>
          exact ih.evaluate hmatches₁ hcurrent₁ (hchain.mono hω₁) hb
            (hsure.part (.undecided hdone hdecided))
  | var hname =>
      exact lookUp_alike h hcurrent hchain hname (hsure.part .var _ .refl _ _ rfl)
  | assign hname he =>
      refine (ih.evaluate h hcurrent hchain he (hsure.part .assigned)).bind ?_
      intro ω₁ v v' m₁ m₁' hω₁ hmatches₁ hcurrent₁ _ hv
      refine (assign_alike hmatches₁ hcurrent₁ (hchain.mono hω₁) hname hv).bind ?_
      intro ω₂ _ _ m₂ m₂' hω₂ hmatches₂ hcurrent₂ _ _
      exact EndsAlike.done hmatches₂ hcurrent₂ (hv.mono hω₂)
  | call hcallee hparen hes =>
      refine (ih.evaluate h hcurrent hchain hcallee (hsure.part .callee)).bind ?_
      intro ω₁ v v' m₁ m₁' hω₁ hmatches₁ hcurrent₁ hdone₁ hv
      refine (ih.evaluateAll hmatches₁ hcurrent₁ (hchain.mono hω₁) hes
        (hsure.part (.arguments hdone₁))).bind ?_
      intro ω₂ vs vs' m₂ m₂' hω₂ hmatches₂ hcurrent₂ hdone₂ hvs
      exact ih.callValue hmatches₂ hcurrent₂ (hv.mono hω₂) hparen hvs
        (hsure.part (.call hdone₁ hdone₂))
  | get hobject hname =>
      refine (ih.evaluate h hcurrent hchain hobject (hsure.part .object)).bind ?_
      intro ω₁ v v' m₁ m₁' _ hmatches₁ hcurrent₁ _ hv
      exact getProperty_alike hmatches₁ hcurrent₁ hv hname
  | set hobject hname hvalue =>
      refine (ih.evaluate h hcurrent hchain hobject (hsure.part .holder)).bind ?_
      intro ω₁ v v' m₁ m₁' hω₁ hmatches₁ hcurrent₁ hdone hv
      cases hv with
      | instance_ inst hc =>
          refine (ih.evaluate hmatches₁ hcurrent₁ (hchain.mono hω₁) hvalue
            (hsure.part (.held hdone))).bind ?_
          intro ω₂ u u' m₂ m₂' _ hmatches₂ hcurrent₂ _ hu
          rw [C.lexeme_eq hname]
          exact EndsAlike.done (hmatches₂.setField inst _ hu) hcurrent₂ hu
      | _ => exact EndsAlike.failAt hmatches₁ hname _
  | this hkeyword =>
      exact lookUp_alike h hcurrent hchain hkeyword (hsure.part .this _ .refl _ _ rfl)

theorem evaluateAll_alike (ih : C.Simulates n) {es es' : List (Expr NodeId)}
    (h : C.Matches ω m m') (hcurrent : m.current = s) (hchain : ω.Leads Δ s)
    (hes : Expr.AlikeAll C.likeness Δ es es')
    (hsure : Moment.Sure ⟨n + 1, .evaluateAll es, m⟩) :
    C.EndsAlike ω s (fun ω => List.Forall₂ (C.ValueAlike ω)) (evaluateAll (n + 1) es m)
      (evaluateAll (n + 1) es' m') := by
  cases hes with
  | nil => exact EndsAlike.done h hcurrent .nil
  | cons he hes =>
      refine (ih.evaluate h hcurrent hchain he (hsure.part .firstOf)).bind ?_
      intro ω₁ v v' m₁ m₁' hω₁ hmatches₁ hcurrent₁ hdone hv
      refine (ih.evaluateAll hmatches₁ hcurrent₁ (hchain.mono hω₁) hes
        (hsure.part (.othersOf hdone))).bind ?_
      intro ω₂ vs vs' m₂ m₂' hω₂ hmatches₂ hcurrent₂ _ hvs
      exact EndsAlike.done hmatches₂ hcurrent₂ (.cons (hv.mono hω₂) hvs)

theorem callValue_alike (ih : C.Simulates n) {callee callee' : Value} {paren paren' : Token}
    {vs vs' : List Value} (h : C.Matches ω m m') (hcurrent : m.current = s)
    (hcallee : C.ValueAlike ω callee callee') (hparen : C.token paren paren')
    (hvs : List.Forall₂ (C.ValueAlike ω) vs vs')
    (hsure : Moment.Sure ⟨n + 1, .callValue callee paren vs, m⟩) :
    C.EndsAlike ω s C.ValueAlike (callValue (n + 1) callee paren vs m)
      (callValue (n + 1) callee' paren' vs' m') := by
  have hcheck := checkCall_alike h hcurrent hcallee vs.length hparen
  unfold callValue
  rw [← hvs.length_eq]
  refine hcheck.bind ?_
  intro ω₁ _ _ m₁ m₁' hω₁ hmatches₁ hcurrent₁ hdone _
  obtain rfl := (Run.arity?_of_checkCall hdone).2
  refine EndsAlike.counted ?_
  have hcounted : C.Matches ω₁ m₁.countCall m₁'.countCall :=
    hmatches₁.withDepth (congrArg (· + 1) hmatches₁.depth)
  exact ih.invoke hcounted hcurrent₁ (hcallee.mono hω₁)
    (hvs.imp fun _ _ hv => hv.mono hω₁) (hsure.part (.invoke hdone))

theorem invoke_alike (ih : C.Simulates n) {callee callee' : Value} {vs vs' : List Value}
    (h : C.Matches ω m m') (hcurrent : m.current = s) (hcallee : C.ValueAlike ω callee callee')
    (hvs : List.Forall₂ (C.ValueAlike ω) vs vs')
    (hsure : Moment.Sure ⟨n + 1, .invoke callee vs, m⟩) :
    C.EndsAlike ω s C.ValueAlike (invoke (n + 1) callee vs m)
      (invoke (n + 1) callee' vs' m') := by
  cases hcallee with
  | native f =>
      refine (readClock_alike h hcurrent).bind ?_
      rintro ω₁ time _ m₁ m₁' _ hmatches₁ hcurrent₁ _ rfl
      exact EndsAlike.done hmatches₁ hcurrent₁ (.number _)
  | function _ hr => exact ih.runRoutine h hcurrent hr hvs (hsure.part .function)
  | @class_ c c' hc =>
      have hinitializer := hc.initializer?
      rw [invoke_class, invoke_class]
      cases hfound : c.initializer? with
      | none =>
          rw [hfound] at hinitializer
          generalize c'.initializer? = found' at hinitializer
          cases hinitializer
          rw [h.instances]
          exact EndsAlike.done h.addInstance hcurrent (.instance_ _ hc)
      | some r =>
          have hreceiver := hsure.part (.initializer hfound)
          rw [hfound] at hinitializer
          generalize c'.initializer? = found' at hinitializer
          cases hinitializer with
          | some hr =>
              obtain ⟨ω₁, hω₁, hmatches₁, hbound⟩ := h.addInstance.bind hr
                (.instance_ m.instances.size hc)
              have hrun := ih.runRoutine hmatches₁ hcurrent hbound
                (hvs.imp fun _ _ hv => hv.mono hω₁) hreceiver
              dsimp only
              rw [h.instances]
              refine (hrun.bind ?_).after hω₁
              intro ω₂ _ _ m₂ m₂' hω₂ hmatches₂ hcurrent₂ _ _
              exact EndsAlike.done hmatches₂ hcurrent₂
                (.instance_ _ (hc.mono (hω₁.trans hω₂)))
  | _ => exact EndsAlike.done h hcurrent .nil

theorem declaration_parts {d d' : FunctionDecl NodeId}
    (h : FunctionDecl.Alike C.likeness Δ d d') :
    ∃ mark, List.Forall₂ (fun t t' => C.Spelled mark t.lexeme t'.lexeme) d.params d'.params ∧
      Stmt.AlikeAll C.likeness (mark :: Δ) d.body d'.body := by
  cases h with
  | mk _ hparams h => exact ⟨_, hparams, h⟩

theorem runRoutine_alike (ih : C.Simulates n) {r r' : Routine} {vs vs' : List Value}
    (h : C.Matches ω m m') (hcurrent : m.current = s) (hr : C.RoutineAlike ω id r r')
    (hvs : List.Forall₂ (C.ValueAlike ω) vs vs')
    (hsure : Moment.Sure ⟨n + 1, .runRoutine r vs, m⟩) :
    C.EndsAlike ω s C.ValueAlike (runRoutine (n + 1) r vs m) (runRoutine (n + 1) r' vs' m') := by
  subst hcurrent
  obtain ⟨Δ, hleads, hdeclaration⟩ := hr.declaration
  obtain ⟨mark, hparams, hbody⟩ := declaration_parts hdeclaration
  have hsize : m'.scopes.size = m.scopes.size := h.size'.trans h.size.symm
  have hω : ω <+: ω ++ [⟨mark, some r.scope⟩] := List.prefix_append _ _
  have hseat : (ω ++ [⟨mark, some r.scope⟩])[m.scopes.size]? = some ⟨mark, some r.scope⟩ := by
    rw [h.size, List.getElem?_concat_length]
  have hinner : Plan.Leads (ω ++ [⟨mark, some r.scope⟩]) (mark :: Δ) m.scopes.size :=
    ⟨r.scope, hseat, hleads.mono hω⟩
  have hdefined := (h.push hleads mark).defineAll hseat hparams
    (hvs.imp fun _ _ hv => hv.mono hω)
  have hbodySure := hsure.part .body
  rw [runRoutine_succ, runRoutine_succ, hr.scope, hsize]
  unfold Machine.enterCall at hbodySure
  dsimp only at hdefined
  generalize hM : { m with
      scopes := (m.scopes.push (some r.scope)).defineAll m.scopes.size r.declaration.params vs } =
    M at hdefined ⊢
  generalize { m' with
      scopes :=
        (m'.scopes.push (some r.scope)).defineAll m.scopes.size r'.declaration.params vs' } =
    M' at hdefined ⊢
  have hcurrent : M.current = m.current := by rw [← hM]
  have hrun := ih.executeAll (s := m.scopes.size) (hdefined.enter m.scopes.size) rfl hinner hbody
    (by rw [← hM]; exact hbodySure)
  have hinScope := EndsAlike.inScope hdefined.current hrun
  rw [hcurrent] at hinScope
  refine (hinScope.bind ?_).after hω
  intro ω' flow flow' m₁ m₁' hω' hmatches hcurrent _ hflow
  exact result_alike hmatches hcurrent (hr.mono (hω.trans hω')) hflow

theorem block_alike (ih : C.Simulates n) {mark : Bool} {body body' : List (Stmt NodeId)}
    (h : C.Matches ω m m') (hcurrent : m.current = s) (hchain : ω.Leads Δ s)
    (hbody : Stmt.AlikeAll C.likeness (mark :: Δ) body body')
    (hsure : Moment.Sure ⟨n + 1, .execute (.block body), m⟩) :
    C.EndsAlike ω s C.FlowAlike (execute (n + 1) (.block body) m)
      (execute (n + 1) (.block body') m') := by
  subst hcurrent
  have hsize : m'.scopes.size = m.scopes.size := h.size'.trans h.size.symm
  have hω : ω <+: ω ++ [⟨mark, some m.current⟩] := List.prefix_append _ _
  have hseat : (ω ++ [⟨mark, some m.current⟩])[m.scopes.size]? = some ⟨mark, some m.current⟩ := by
    rw [h.size, List.getElem?_concat_length]
  have hinner : Plan.Leads (ω ++ [⟨mark, some m.current⟩]) (mark :: Δ) m.scopes.size :=
    ⟨m.current, hseat, hchain.mono hω⟩
  have hpushed := h.push hchain mark
  have hbodySure := hsure.part .block
  have hscopes : m'.scopes.push (some m'.current) = m'.scopes.push (some m.current) := by
    rw [h.current]
  rw [execute_block, execute_block, hscopes, hsize]
  unfold Machine.enterBlock at hbodySure
  generalize hM : { m with
      scopes := m.scopes.push (some m.current) } = M at hpushed ⊢
  generalize { m' with
      scopes := m'.scopes.push (some m.current) } = M' at hpushed ⊢
  have hcurrent : M.current = m.current := by rw [← hM]
  have hrun := ih.executeAll (s := m.scopes.size) (hpushed.enter m.scopes.size) rfl hinner hbody
    (by rw [← hM]; exact hbodySure)
  have hinScope := EndsAlike.inScope hpushed.current hrun
  rw [hcurrent] at hinScope
  exact hinScope.after hω

theorem execute_alike (ih : C.Simulates n) {st st' : Stmt NodeId} (h : C.Matches ω m m')
    (hcurrent : m.current = s) (hchain : ω.Leads Δ s) (hst : Stmt.Alike C.likeness Δ st st')
    (hsure : Moment.Sure ⟨n + 1, .execute st, m⟩) :
    C.EndsAlike ω s C.FlowAlike (execute (n + 1) st m) (execute (n + 1) st' m') := by
  cases hst with
  | expression he =>
      refine (ih.evaluate h hcurrent hchain he (hsure.part .expression)).bind ?_
      intro ω₁ _ _ m₁ m₁' _ hmatches₁ hcurrent₁ _ _
      exact EndsAlike.done hmatches₁ hcurrent₁ .normal
  | print he =>
      refine (ih.evaluate h hcurrent hchain he (hsure.part .print)).bind ?_
      intro ω₁ v v' m₁ m₁' _ hmatches₁ hcurrent₁ _ hv
      refine (print_alike hmatches₁ hcurrent₁ hv).bind ?_
      intro ω₂ _ _ m₂ m₂' _ hmatches₂ hcurrent₂ _ _
      exact EndsAlike.done hmatches₂ hcurrent₂ .normal
  | var hname hinitial =>
      cases hinitial with
      | none =>
          refine (defineHere_alike h hcurrent hchain hname .nil).bind ?_
          intro ω₁ _ _ m₁ m₁' _ hmatches₁ hcurrent₁ _ _
          exact EndsAlike.done hmatches₁ hcurrent₁ .normal
      | some he =>
          refine (ih.evaluate h hcurrent hchain he (hsure.part .initial)).bind ?_
          intro ω₁ v v' m₁ m₁' hω₁ hmatches₁ hcurrent₁ _ hv
          refine (defineHere_alike hmatches₁ hcurrent₁ (hchain.mono hω₁) hname hv).bind ?_
          intro ω₂ _ _ m₂ m₂' _ hmatches₂ hcurrent₂ _ _
          exact EndsAlike.done hmatches₂ hcurrent₂ .normal
  | block hbody => exact block_alike ih h hcurrent hchain hbody hsure
  | branch he hs =>
      refine (ih.evaluate h hcurrent hchain he (hsure.part .condition)).bind ?_
      intro ω₁ v v' m₁ m₁' hω₁ hmatches₁ hcurrent₁ hdone hv
      rw [hv.truthy]
      split
      · rename_i htruthy
        exact ih.execute hmatches₁ hcurrent₁ (hchain.mono hω₁) hs
          (hsure.part (.consequent hdone htruthy))
      · exact EndsAlike.done hmatches₁ hcurrent₁ .normal
  | branches he hs hother =>
      refine (ih.evaluate h hcurrent hchain he (hsure.part .condition)).bind ?_
      intro ω₁ v v' m₁ m₁' hω₁ hmatches₁ hcurrent₁ hdone hv
      rw [hv.truthy]
      split
      · rename_i htruthy
        exact ih.execute hmatches₁ hcurrent₁ (hchain.mono hω₁) hs
          (hsure.part (.consequent hdone htruthy))
      · rename_i htruthy
        exact ih.execute hmatches₁ hcurrent₁ (hchain.mono hω₁) hother
          (hsure.part (.alternative hdone htruthy))
  | loop he hs =>
      refine (ih.evaluate h hcurrent hchain he (hsure.part .loopCondition)).bind ?_
      intro ω₁ v v' m₁ m₁' hω₁ hmatches₁ hcurrent₁ hdone₁ hv
      rw [hv.truthy]
      split
      · rename_i htruthy
        refine (ih.execute hmatches₁ hcurrent₁ (hchain.mono hω₁) hs
          (hsure.part (.loopBody hdone₁ htruthy))).bind ?_
        intro ω₂ flow flow' m₂ m₂' hω₂ hmatches₂ hcurrent₂ hdone₂ hflow
        cases hflow with
        | normal =>
            exact ih.execute hmatches₂ hcurrent₂ (hchain.mono (hω₁.trans hω₂)) (.loop he hs)
              (hsure.part (.loopAgain hdone₁ htruthy hdone₂))
        | returned hv => exact EndsAlike.done hmatches₂ hcurrent₂ (.returned hv)
      · exact EndsAlike.done hmatches₁ hcurrent₁ .normal
  | function hname hd =>
      refine (makeFunction_alike h hcurrent hchain hd).bind ?_
      intro ω₁ v v' m₁ m₁' hω₁ hmatches₁ hcurrent₁ _ hv
      refine (defineHere_alike hmatches₁ hcurrent₁ (hchain.mono hω₁) hname.2 hv).bind ?_
      intro ω₂ _ _ m₂ m₂' _ hmatches₂ hcurrent₂ _ _
      exact EndsAlike.done hmatches₂ hcurrent₂ .normal
  | ret _ hvalue =>
      cases hvalue with
      | none => exact EndsAlike.done h hcurrent (.returned .nil)
      | some he =>
          refine (ih.evaluate h hcurrent hchain he (hsure.part .answer)).bind ?_
          intro ω₁ v v' m₁ m₁' _ hmatches₁ hcurrent₁ _ hv
          exact EndsAlike.done hmatches₁ hcurrent₁ (.returned hv)
  | class_ hname hds =>
      refine (makeClass_alike h hcurrent hchain (C.lexeme_eq hname.1) hds).bind ?_
      intro ω₁ v v' m₁ m₁' hω₁ hmatches₁ hcurrent₁ _ hv
      refine (defineHere_alike hmatches₁ hcurrent₁ (hchain.mono hω₁) hname.2 hv).bind ?_
      intro ω₂ _ _ m₂ m₂' _ hmatches₂ hcurrent₂ _ _
      exact EndsAlike.done hmatches₂ hcurrent₂ .normal

theorem executeAll_alike (ih : C.Simulates n) {ss ss' : List (Stmt NodeId)}
    (h : C.Matches ω m m') (hcurrent : m.current = s) (hchain : ω.Leads Δ s)
    (hss : Stmt.AlikeAll C.likeness Δ ss ss')
    (hsure : Moment.Sure ⟨n + 1, .executeAll ss, m⟩) :
    C.EndsAlike ω s C.FlowAlike (executeAll (n + 1) ss m) (executeAll (n + 1) ss' m') := by
  cases hss with
  | nil => exact EndsAlike.done h hcurrent .normal
  | cons hst hss =>
      refine (ih.execute h hcurrent hchain hst (hsure.part .first)).bind ?_
      intro ω₁ flow flow' m₁ m₁' hω₁ hmatches₁ hcurrent₁ hdone hflow
      cases hflow with
      | normal =>
          exact ih.executeAll hmatches₁ hcurrent₁ (hchain.mono hω₁) hss
            (hsure.part (.others hdone))
      | returned hv => exact EndsAlike.done hmatches₁ hcurrent₁ (.returned hv)

/-- Whatever the fuel, corresponding programs run alike. -/
theorem simulates (C : Correspondence) (n : Nat) : C.Simulates n := by
  induction n with
  | zero =>
      constructor
      all_goals
        intros
        exact .unfinished
  | succ n ih =>
      exact ⟨evaluate_alike ih, evaluateAll_alike ih, callValue_alike ih, invoke_alike ih,
        runRoutine_alike ih, execute_alike ih, executeAll_alike ih⟩

end Lox.Correspondence
