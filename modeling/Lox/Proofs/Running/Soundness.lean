import Lox.Proofs.Running.Parts

/-!
Every moment that is ready settles.

A task puts together what its parts leave. That it settles follows from the parts, and for all
tasks together by induction on the fuel.
-/

namespace Lox.Setting

open Scoping

variable {W : Setting} {Γ : List OpenFrame} {m m' : Machine} {n : Nat} {x y : Moment}
  {α β : Type} {P : α → Scopes Value → Prop} {Q : β → Scopes Value → Prop}

theorem SettlesAt.done {v : α} (hresumes : m.Resumes m') (hfits : W.Fits m')
    (h : P v m'.scopes) : W.SettlesAt m P (.done v m') :=
  ⟨hresumes, hfits, h⟩

theorem SettlesAt.resumed {ending : Ending α} (hresumes : m.Resumes m')
    (h : W.SettlesAt m' P ending) : W.SettlesAt m P ending := by
  cases ending with
  | done v m'' => exact ⟨hresumes.trans h.1, h.2⟩
  | failed fault m'' => exact ⟨hresumes.trans h.1, h.2⟩
  | unfinished => trivial

theorem SettlesAt.mono {P' : α → Scopes Value → Prop} {ending : Ending α}
    (h : W.SettlesAt m P ending)
    (hP : ∀ v m', m.Resumes m' → P v m'.scopes → P' v m'.scopes) : W.SettlesAt m P' ending := by
  cases ending with
  | done v m' => exact ⟨h.1, h.2.1, hP v m' h.1 h.2.2⟩
  | failed fault m' => exact h
  | unfinished => trivial

theorem SettlesAt.bind {r : Run α} {k : α → Run β} (h : W.SettlesAt m P (r m))
    (hk : ∀ v m', r m = .done v m' → m.Resumes m' → W.Fits m' → P v m'.scopes →
      W.SettlesAt m' Q (k v m')) : W.SettlesAt m Q ((r >>= k) m) := by
  rw [Run.bind_apply]
  cases hr : r m with
  | done v m' =>
      rw [hr] at h
      exact (hk v m' hr h.1 h.2.1 h.2.2).resumed h.1
  | failed fault m' =>
      rw [hr] at h
      exact h
  | unfinished => trivial

theorem SettlesAt.fail (hfits : W.Fits m) (fault : Diagnostic) :
    W.SettlesAt m P (Run.fail fault m) :=
  ⟨.refl m, hfits⟩

theorem SettlesAt.ofExcept {result : Except RuntimeFault α} (hfits : W.Fits m) (place : Token)
    (h : ∀ v, result = .ok v → P v m.scopes) : W.SettlesAt m P (Run.ofExcept place result m) := by
  cases result with
  | ok v => exact .done (.refl m) hfits (h v rfl)
  | error fault => exact .fail hfits _

theorem fitsValue_ofLiteral (scopes : Scopes Value) (value : Literal) :
    W.FitsValue scopes (.ofLiteral value) := by
  cases value <;> trivial

theorem fitsValue_unary {scopes : Scopes Value} {operator : Kind} {operand v : Value}
    (h : Operator.unary operator operand = .ok v) : W.FitsValue scopes v := by
  unfold Operator.unary at h
  split at h
  · cases h
    trivial
  · split at h <;> cases h
    trivial
  · cases h

theorem fitsValue_arithmetic {scopes : Scopes Value} {operator : Kind} {a b : Float} {v : Value}
    (h : Operator.arithmetic operator a b = .ok v) : W.FitsValue scopes v := by
  unfold Operator.arithmetic at h
  split at h
  case h_3 =>
    split at h <;> cases h
    trivial
  all_goals
    cases h
    try trivial

theorem fitsValue_binary {scopes : Scopes Value} {operator : Kind} {left right v : Value}
    (h : Operator.binary operator left right = .ok v) : W.FitsValue scopes v := by
  unfold Operator.binary at h
  split at h
  · cases h
    trivial
  · cases h
    trivial
  · unfold Operator.plus at h
    split at h
    · split at h <;> cases h
      trivial
    · split at h <;> cases h
      trivial
    · cases h
  · split at h
    · split at h
      · exact fitsValue_arithmetic h
      · cases h
    · cases h

theorem fitsValue_get? {scopes : Scopes Value}
    (hbound : ∀ s name v, scopes.own? s name = some v → W.FitsValue scopes v) (s : ScopeId)
    {name : String} {v : Value} (h : scopes.get? s name = some v) : W.FitsValue scopes v := by
  induction s using Nat.strongRecOn with
  | ind s ih =>
      rw [Scopes.get?] at h
      split at h
      · rename_i hown
        cases h
        exact hbound s name _ hown
      · split at h
        · cases h
        · rename_i outer houter
          exact ih outer (Scopes.enclosing?_lt houter) h

theorem lookUp_settles {node : NodeId} {name : Token} (hfits : W.Fits m) :
    W.SettlesAt m (fun v scopes => W.FitsValue scopes v) (Run.lookUp node name m) := by
  unfold Run.lookUp
  dsimp only
  split
  · rename_i v hfound
    refine .done (.refl m) hfits ?_
    split at hfound
    · obtain ⟨scope, _, hown⟩ := Option.bind_eq_some_iff.mp hfound
      exact hfits.bound scope _ v hown
    · exact fitsValue_get? hfits.bound _ hfound
  · exact ⟨.refl m, hfits⟩

theorem define_resumes (m : Machine) (s : ScopeId) (name : String) (v : Value) :
    m.Resumes { m with scopes := m.scopes.define s name v } :=
  ⟨.define _ _ _ _, rfl, rfl, rfl⟩

theorem assign_settles {node : NodeId} {name : Token} {v : Value} (hfits : W.Fits m)
    (hv : W.FitsValue m.scopes v) :
    W.SettlesAt m (fun _ _ => True) (Run.assign node name v m) := by
  unfold Run.assign
  dsimp only
  split
  · rename_i scope _
    have hextends := Scopes.Extends.define m.scopes scope name.lexeme v
    exact .done (define_resumes m scope _ v) (hfits.define scope _ (hv.extends hextends)) trivial
  · exact ⟨.refl m, hfits⟩

theorem bindMethod_settles {r : Routine} {receiver : Value}
    (hx : W.Ready Γ ⟨n, .bindMethod r receiver, m⟩) :
    W.SettlesAt m (fun f scopes => W.FitsRoutine id scopes f.routine)
      (Run.bindMethod r receiver m) := by
  obtain ⟨hfits, hforesees, hr, hreceiver⟩ := hx
  have hmade : W.made .receiver m.scopes.size := hforesees _ .refl .receiver rfl
  obtain ⟨hfits', hr'⟩ := bind_fits hfits hr hreceiver hmade
  exact .done ⟨extends_bind m r receiver, rfl, rfl, rfl⟩ hfits' hr'

theorem getProperty_settles {object : Value} {name : Token} (hfits : W.Fits m)
    (hmethod : ∀ inst c r, object = .instance_ inst c →
      (m.instances[inst]?).bind (fun fields => fields.find? name.lexeme) = none →
      c.methods.find? name.lexeme = some r →
      W.SettlesAt m (fun f scopes => W.FitsRoutine id scopes f.routine)
        (Run.bindMethod r object m)) :
    W.SettlesAt m (fun v scopes => W.FitsValue scopes v) (Run.getProperty object name m) := by
  cases object with
  | instance_ inst c =>
      simp only [Run.getProperty, Run.bind_apply, Run.field?]
      cases hfield : (m.instances[inst]?).bind fun fields => fields.find? name.lexeme with
      | some v =>
          obtain ⟨fields, hfields, hv⟩ := Option.bind_eq_some_iff.mp hfield
          exact .done (.refl m) hfits (hfits.fields inst fields _ v hfields hv)
      | none =>
          cases hfind : c.methods.find? name.lexeme with
          | none => exact .fail hfits _
          | some r =>
              refine SettlesAt.bind (hmethod inst c r rfl hfield hfind) ?_
              intro f m' _ _ hfits' hf
              exact .done (.refl m') hfits' hf
  | _ => exact .fail hfits _

theorem setField_settles {inst : Identity} {name : String} {v : Value} (hfits : W.Fits m)
    (hv : W.FitsValue m.scopes v) :
    W.SettlesAt m (fun _ scopes => W.FitsValue scopes v) (Run.setField inst name v m) :=
  .done ⟨.refl _, rfl, rfl, rfl⟩ (hfits.setField inst name hv) hv

theorem settles_of_expression_parts {e : Expr NodeId} (hx : W.Ready Γ ⟨n + 1, .evaluate e, m⟩)
    (ih : W.PartsSettle ⟨n + 1, .evaluate e, m⟩) : W.Settles Γ ⟨n + 1, .evaluate e, m⟩ := by
  have hfits := hx.fits
  have hparts : ∀ y, Part ⟨n + 1, .evaluate e, m⟩ y → W.Settles Γ y :=
    fun y hpart => ih y Γ hpart (ready_of_expression_part hx ih hpart)
  show W.SettlesAt m (fun v scopes => W.FitsValue scopes v) (evaluate (n + 1) e m)
  cases e with
  | literal value => exact .done (.refl m) hfits (fitsValue_ofLiteral _ value)
  | grouping inner => exact hparts _ .grouping
  | unary operator operand =>
      refine SettlesAt.bind (hparts _ .operand).evaluate ?_
      intro v m' _ _ hfits' _
      exact .ofExcept hfits' operator fun _ => fitsValue_unary
  | binary left operator right =>
      refine SettlesAt.bind (hparts _ .left).evaluate ?_
      intro a m' ha _ _ _
      refine SettlesAt.bind (hparts _ (.right ha)).evaluate ?_
      intro b m'' _ _ hfits'' _
      exact .ofExcept hfits'' operator fun _ => fitsValue_binary
  | logical left operator right =>
      refine SettlesAt.bind (hparts _ .deciding).evaluate ?_
      intro v m' hv _ hfits' hvalue
      by_cases hdecides : Operator.decides operator.kind v
      · rw [if_pos hdecides]
        exact .done (.refl m') hfits' hvalue
      · rw [if_neg hdecides]
        exact hparts _ (.undecided hv (by simpa using hdecides))
  | var node name => exact hparts _ .var
  | assign node name value =>
      refine SettlesAt.bind (hparts _ .assigned).evaluate ?_
      intro v m' hv _ _ hvalue
      refine SettlesAt.bind (assign_settles ‹W.Fits m'› hvalue) ?_
      intro _ m'' hassign hresumes hfits'' _
      exact .done (.refl m'') hfits'' (hvalue.extends hresumes.scopes)
  | call callee paren arguments =>
      refine SettlesAt.bind (hparts _ .callee).evaluate ?_
      intro v m' hv _ _ _
      refine SettlesAt.bind (hparts _ (.arguments hv)).evaluateAll ?_
      intro vs m'' hvs _ _ _
      exact hparts _ (.call hv hvs)
  | get object name =>
      refine SettlesAt.bind (hparts _ .object).evaluate ?_
      intro v m' hv _ hfits' hvalue
      refine getProperty_settles hfits' ?_
      rintro inst c r rfl hfield hr
      exact (hparts _ (.method hv hfield hr)).bindMethod
  | set object name value =>
      refine SettlesAt.bind (hparts _ .holder).evaluate ?_
      intro v m' hv _ hfits' _
      cases v with
      | instance_ inst c =>
          refine SettlesAt.bind (hparts _ (.held hv)).evaluate ?_
          intro v m'' _ _ hfits'' hvalue
          refine SettlesAt.bind (setField_settles hfits'' hvalue) ?_
          intro _ m₃ _ _ hfits₃ hvalue
          exact .done (.refl m₃) hfits₃ hvalue
      | _ => exact .fail hfits' _
  | this node keyword => exact hparts _ .this

theorem SettlesAt.inScope {scope : ScopeId} {body : Run α}
    (h : W.SettlesAt { m with current := scope } P (body { m with current := scope })) :
    W.SettlesAt m P (Run.inScope scope body m) := by
  unfold Run.inScope
  dsimp only
  cases hbody : body { m with current := scope } with
  | done v m' =>
      rw [hbody] at h
      obtain ⟨⟨hscopes, hhops, _, hdepth⟩, hfits, hv⟩ := h
      exact .done ⟨hscopes, hhops, rfl, hdepth⟩ (hfits.current _) hv
  | failed fault m' =>
      rw [hbody] at h
      obtain ⟨⟨hscopes, hhops, _, hdepth⟩, hfits⟩ := h
      exact ⟨⟨hscopes, hhops, rfl, hdepth⟩, hfits.current _⟩
  | unfinished => trivial

theorem SettlesAt.counted {body : Run α} (h : W.SettlesAt m.countCall P (body m.countCall)) :
    W.SettlesAt m P (Run.counted body m) := by
  unfold Run.counted
  cases hbody : body { m with depth := m.depth + 1 } with
  | done v m' =>
      rw [Machine.countCall, hbody] at h
      obtain ⟨⟨hscopes, hhops, hcurrent, hdepth⟩, hfits, hv⟩ := h
      have hdepth : m'.depth - 1 = m.depth := by rw [hdepth]; rfl
      exact .done ⟨hscopes, hhops, hcurrent, hdepth⟩ (hfits.depth _) hv
  | failed fault m' =>
      rw [Machine.countCall, hbody] at h
      obtain ⟨⟨hscopes, hhops, hcurrent, hdepth⟩, hfits⟩ := h
      have hdepth : m'.depth - 1 = m.depth := by rw [hdepth]; rfl
      exact ⟨⟨hscopes, hhops, hcurrent, hdepth⟩, hfits.depth _⟩
  | unfinished => trivial

theorem result_settles {r : Routine} {flow : Flow} (hfits : W.Fits m)
    (hflow : W.FitsFlow m.scopes flow) :
    W.SettlesAt m (fun v scopes => W.FitsValue scopes v) (Run.result r flow m) := by
  unfold Run.result
  split
  · refine .done (.refl m) hfits ?_
    cases hthis : m.scopes.getAt? r.scope 0 Resolution.thisName with
    | none => trivial
    | some v => exact hfits.bound r.scope _ v hthis
  · cases flow with
    | normal => exact .done (.refl m) hfits trivial
    | returned v => exact .done (.refl m) hfits hflow

theorem settles_of_routine_parts {r : Routine} {vs : List Value}
    (hx : W.Ready Γ ⟨n + 1, .runRoutine r vs, m⟩)
    (ih : W.PartsSettle ⟨n + 1, .runRoutine r vs, m⟩) :
    W.Settles Γ ⟨n + 1, .runRoutine r vs, m⟩ := by
  obtain ⟨Γ', hbody⟩ := ready_of_part hx ih .body
  have hsettles := (ih _ Γ' .body hbody).executeAll
  show W.SettlesAt m (fun v scopes => W.FitsValue scopes v) (runRoutine (n + 1) r vs m)
  rw [runRoutine_succ]
  have hresumes : m.Resumes { m with
      scopes := (m.scopes.push (some r.scope)).defineAll m.scopes.size r.declaration.params vs } :=
    ⟨extends_enterCall m r vs, rfl, rfl, rfl⟩
  refine SettlesAt.resumed hresumes ?_
  refine SettlesAt.bind (SettlesAt.inScope hsettles) ?_
  intro flow m' _ _ hfits' hflow
  exact result_settles hfits' hflow

theorem settles_of_call_parts {callee : Value} {vs : List Value}
    (hx : W.Ready Γ ⟨n + 1, .invoke callee vs, m⟩)
    (ih : W.PartsSettle ⟨n + 1, .invoke callee vs, m⟩) :
    W.Settles Γ ⟨n + 1, .invoke callee vs, m⟩ := by
  have hparts : ∀ y, Part ⟨n + 1, .invoke callee vs, m⟩ y → W.Settles Γ y :=
    fun y hpart => ih y Γ hpart (ready_of_call_part hx hpart)
  obtain ⟨hfits, -, hcallee, -, -⟩ := hx
  show W.SettlesAt m (fun v scopes => W.FitsValue scopes v) (invoke (n + 1) callee vs m)
  cases callee with
  | native f =>
      exact .done ⟨.refl _, rfl, rfl, rfl⟩
        ⟨hfits.nonempty, hfits.outermost, hfits.bound, hfits.fields, hfits.hops⟩ trivial
  | function f => exact (hparts _ .function).runRoutine
  | class_ c =>
      rw [invoke_class]
      cases hr : c.initializer? with
      | none => exact .done ⟨.refl _, rfl, rfl, rfl⟩ hfits.addInstance hcallee
      | some r =>
          have hbind : m.Resumes (m.addInstance.bind r (.instance_ m.instances.size c)) :=
            ⟨extends_bind m.addInstance r _, rfl, rfl, rfl⟩
          refine SettlesAt.resumed hbind ?_
          refine SettlesAt.bind (hparts _ (.initializer hr)).runRoutine ?_
          intro _ m' _ hresumes hfits' _
          refine .done (.refl m') hfits' ?_
          exact FitsValue.extends (v := .instance_ m.instances.size c) hcallee
            (hbind.scopes.trans hresumes.scopes)
  | _ => exact .done (.refl m) hfits trivial

/-- A name that is bound where the machine stands is introduced in the innermost frame. -/
theorem Chain.defined (hfits : W.Fits m) (hchain : W.Chain m.scopes Γ m.current) (name : Token)
    (v : Value) :
    W.Chain (m.scopes.define m.current name.lexeme v) (Scoping.introduce name Γ) m.current := by
  refine (hchain.extends (.define _ _ _ _)).introduce ?_
  rw [Scopes.own?_define_self (hchain.lt_size hfits.nonempty)]
  rfl

theorem defines_settles {name : Token} {v : Value} {fresh : Identity} (hfits : W.Fits m)
    (hchain : W.Chain m.scopes Γ m.current)
    (hv : W.FitsValue (m.scopes.define m.current name.lexeme v) v) :
    W.SettlesAt m (W.Leaves (introduce name Γ) m.current)
      (.done .normal
        { m with scopes := m.scopes.define m.current name.lexeme v, fresh := fresh }) :=
  .done ⟨.define _ _ _ _, rfl, rfl, rfl⟩ ((hfits.define _ _ hv).fresh _)
    (hchain.defined hfits name v)

theorem find?_methods {methods : List (FunctionDecl NodeId)} {make : FunctionDecl NodeId → Routine}
    {table : Bindings Routine} {name : String} {r : Routine}
    (h : (methods.foldl (fun table method => table.insert method.name.lexeme (make method))
      table).find? name = some r) :
    table.find? name = some r ∨ ∃ method ∈ methods, r = make method := by
  induction methods generalizing table with
  | nil => exact .inl h
  | cons method methods ih =>
      rcases ih h with h | ⟨method', hmem, rfl⟩
      · rw [Bindings.find?_insert] at h
        split at h
        · cases h
          exact .inr ⟨method, List.mem_cons_self, rfl⟩
        · exact .inl h
      · exact .inr ⟨method', List.mem_cons_of_mem _ hmem, rfl⟩

theorem Leaves.fitsFlow {after : List OpenFrame} {s : ScopeId} {flow : Flow}
    {scopes : Scopes Value} (h : W.Leaves after s flow scopes) : W.FitsFlow scopes flow := by
  cases flow with
  | normal => trivial
  | returned v => exact h

theorem leaves_of_keeps {after : List OpenFrame} {s : ScopeId} {flow : Flow}
    {scopes : Scopes Value} (hchain : W.Chain scopes after s) (hflow : W.FitsFlow scopes flow) :
    W.Leaves after s flow scopes := by
  cases flow with
  | normal => exact hchain
  | returned v => exact hflow

theorem write_settles (hfits : W.Fits m) (piece : String) :
    W.SettlesAt m (fun _ _ => True) (Run.write piece m) := by
  have hwritten : ∀ sink, W.Fits { m with sink } := fun _ =>
    ⟨hfits.nonempty, hfits.outermost, hfits.bound, hfits.fields, hfits.hops⟩
  unfold Run.write
  dsimp only
  split
  · exact .done ⟨.refl _, rfl, rfl, rfl⟩ (hwritten _) trivial
  · exact ⟨⟨.refl _, rfl, rfl, rfl⟩, hwritten _⟩

theorem writeAll_settles (hfits : W.Fits m) (pieces : List String) :
    W.SettlesAt m (fun _ _ => True) (Run.writeAll pieces m) := by
  induction pieces generalizing m with
  | nil => exact .done (.refl m) hfits trivial
  | cons piece pieces ih =>
      refine SettlesAt.bind (write_settles hfits piece) ?_
      intro _ m' _ _ hfits' _
      exact ih hfits'

theorem print_settles (hfits : W.Fits m) (v : Value) :
    W.SettlesAt m (fun _ _ => True) (Run.print v m) :=
  writeAll_settles hfits _

theorem settles_of_class {name : Token} {methods : List (FunctionDecl NodeId)}
    (hx : W.Ready Γ ⟨n + 1, .execute (.class_ name methods), m⟩) :
    W.Settles Γ ⟨n + 1, .execute (.class_ name methods), m⟩ := by
  obtain ⟨hfits, -, hchain, hadmits, horderly⟩ := hx
  refine defines_settles hfits hchain ?_
  intro other r hr
  rcases find?_methods hr with hnone | ⟨method, hmethod, rfl⟩
  · cases hnone
  · refine ⟨introduce name Γ, hchain.defined hfits name _, hadmits.mono ?_ ?_,
      FunctionDecl.orderly_of_mem hmethod horderly⟩
    · exact FunctionDecl.sites_subset hmethod _
    · exact List.subset_cons_of_subset _ (FunctionDecl.tokens_subset hmethod)

theorem settles_of_statement_parts {s : Stmt NodeId} (hx : W.Ready Γ ⟨n + 1, .execute s, m⟩)
    (ih : W.PartsSettle ⟨n + 1, .execute s, m⟩) : W.Settles Γ ⟨n + 1, .execute s, m⟩ := by
  have hparts : ∀ y, Part ⟨n + 1, .execute s, m⟩ y → ∃ Γ', W.Settles Γ' y := by
    intro y hpart
    obtain ⟨Γ', hy⟩ := ready_of_statement_part hx ih hpart
    exact ⟨Γ', ih y Γ' hpart hy⟩
  obtain ⟨hfits, -, hchain, hadmits, horderly⟩ := id hx
  -- whatever does not bind a name leaves the frames as they were
  have hkeeps : ∀ {m' : Machine}, m.Resumes m' → W.Chain m'.scopes Γ m.current :=
    fun hresumes => hchain.extends hresumes.scopes
  show W.SettlesAt m (W.Leaves (s.after Γ) m.current) (execute (n + 1) s m)
  cases s with
  | class_ name methods => exact settles_of_class hx
  | function d =>
      refine defines_settles hfits hchain ?_
      exact ⟨introduce d.name Γ, hchain.defined hfits d.name _, hadmits, horderly⟩
  | expression e =>
      obtain ⟨_, he⟩ := hparts _ .expression
      refine SettlesAt.bind he.evaluate ?_
      intro v m' _ hresumes hfits' _
      exact .done (.refl m') hfits' (hkeeps hresumes)
  | print e =>
      obtain ⟨_, he⟩ := hparts _ .print
      refine SettlesAt.bind he.evaluate ?_
      intro v m' _ hresumes hfits' _
      refine SettlesAt.bind (print_settles hfits' v) ?_
      intro _ m'' _ hresumes' hfits'' _
      exact .done (.refl m'') hfits'' (hkeeps (hresumes.trans hresumes'))
  | var name initial =>
      cases initial with
      | none => exact defines_settles hfits hchain trivial
      | some e =>
          obtain ⟨_, he⟩ := hparts _ .initial
          refine SettlesAt.bind he.evaluate ?_
          intro v m' _ hresumes hfits' hv
          rw [← hresumes.current]
          refine defines_settles hfits' (hchain.resumes hresumes) (hv.extends (.define _ _ _ _))
  | block body =>
      obtain ⟨_, hbody⟩ := hparts _ .block
      have hpush : m.Resumes { m with scopes := m.scopes.push (some m.current) } :=
        ⟨.push _ _, rfl, rfl, rfl⟩
      rw [execute_block]
      refine (SettlesAt.resumed hpush hbody.executeAll.inScope).mono ?_
      intro flow m' hresumes hflow
      exact leaves_of_keeps (hkeeps hresumes) hflow
  | branch condition consequent alternative =>
      obtain ⟨_, hcondition⟩ := hparts _ .condition
      refine SettlesAt.bind hcondition.evaluate ?_
      intro v m' hv hresumes hfits' _
      by_cases htruthy : v.truthy
      · rw [if_pos htruthy]
        obtain ⟨_, hconsequent⟩ := hparts _ (.consequent hv htruthy)
        refine hconsequent.execute.mono ?_
        intro flow m'' hresumes' hflow
        exact leaves_of_keeps (hkeeps (hresumes.trans hresumes')) hflow.fitsFlow
      · rw [if_neg htruthy]
        cases alternative with
        | none => exact .done (.refl m') hfits' (hkeeps hresumes)
        | some alternative =>
            obtain ⟨_, halternative⟩ := hparts _ (.alternative hv htruthy)
            refine halternative.execute.mono ?_
            intro flow m'' hresumes' hflow
            exact leaves_of_keeps (hkeeps (hresumes.trans hresumes')) hflow.fitsFlow
  | loop condition body =>
      obtain ⟨_, hcondition⟩ := hparts _ .loopCondition
      refine SettlesAt.bind hcondition.evaluate ?_
      intro v m' hv hresumes hfits' _
      by_cases htruthy : v.truthy
      · rw [if_pos htruthy]
        obtain ⟨_, hbody⟩ := hparts _ (.loopBody hv htruthy)
        refine SettlesAt.bind hbody.execute ?_
        intro flow m'' hflow hresumes' hfits'' hleaves
        cases flow with
        | normal =>
            obtain ⟨_, hagain⟩ := hparts _ (.loopAgain hv htruthy hflow)
            refine hagain.execute.mono ?_
            intro flow m₃ hresumes₃ hflow
            exact leaves_of_keeps (hkeeps ((hresumes.trans hresumes').trans hresumes₃))
              hflow.fitsFlow
        | returned answer => exact .done (.refl m'') hfits'' hleaves
      · rw [if_neg htruthy]
        exact .done (.refl m') hfits' (hkeeps hresumes)
  | ret keyword value =>
      cases value with
      | none => exact .done (.refl m) hfits trivial
      | some e =>
          obtain ⟨_, he⟩ := hparts _ .answer
          refine SettlesAt.bind he.evaluate ?_
          intro v m' _ hresumes hfits' hv
          exact .done (.refl m') hfits' hv

/-- A moment settles if its parts do. -/
theorem settles_of_parts (hx : W.Ready Γ x) (ih : W.PartsSettle x) : W.Settles Γ x := by
  obtain ⟨fuel, task, m⟩ := x
  have hfits := hx.fits
  cases fuel with
  | zero =>
      cases task with
      | lookUp node name => exact lookUp_settles hfits
      | assign node name v => exact assign_settles hfits hx.task.2.2
      | bindMethod r receiver => exact bindMethod_settles hx
      | _ => trivial
  | succ n =>
      have hparts : ∀ y, Part ⟨n + 1, task, m⟩ y → ∃ Γ', W.Settles Γ' y := by
        intro y hpart
        obtain ⟨Γ', hy⟩ := ready_of_part hx ih hpart
        exact ⟨Γ', ih y Γ' hpart hy⟩
      cases task with
      | evaluate e => exact settles_of_expression_parts hx ih
      | execute s => exact settles_of_statement_parts hx ih
      | invoke callee vs => exact settles_of_call_parts hx ih
      | runRoutine r vs => exact settles_of_routine_parts hx ih
      | lookUp node name => exact lookUp_settles hfits
      | assign node name v => exact assign_settles hfits hx.task.2.2
      | bindMethod r receiver => exact bindMethod_settles hx
      | evaluateAll es =>
          show W.SettlesAt m (fun vs scopes => ∀ v ∈ vs, W.FitsValue scopes v)
            (evaluateAll (n + 1) es m)
          cases es with
          | nil => exact .done (.refl m) hfits (by simp)
          | cons e es =>
              obtain ⟨_, he⟩ := hparts _ .firstOf
              refine SettlesAt.bind he.evaluate ?_
              intro v m' hv _ _ hvalue
              obtain ⟨_, hes⟩ := hparts _ (.othersOf hv)
              refine SettlesAt.bind hes.evaluateAll ?_
              intro vs m'' _ hresumes hfits'' hvs
              refine .done (.refl m'') hfits'' ?_
              intro v' hv'
              rcases List.mem_cons.mp hv' with rfl | hv'
              · exact hvalue.extends hresumes.scopes
              · exact hvs v' hv'
      | callValue callee paren vs =>
          show W.SettlesAt m (fun v scopes => W.FitsValue scopes v)
            (callValue (n + 1) callee paren vs m)
          rw [callValue, Run.bind_apply]
          cases hcheck : Run.checkCall callee vs.length paren m with
          | done _ m' =>
              obtain ⟨_, rfl⟩ := Run.arity?_of_checkCall hcheck
              obtain ⟨_, hinvoke⟩ := hparts _ (.invoke hcheck)
              exact hinvoke.invoke.counted
          | failed fault m' =>
              obtain rfl := Run.machine_of_checkCall hcheck
              exact ⟨.refl _, hfits⟩
          | unfinished => trivial
      | executeAll ss =>
          show W.SettlesAt m (fun flow scopes => W.FitsFlow scopes flow)
            (executeAll (n + 1) ss m)
          cases ss with
          | nil => exact .done (.refl m) hfits trivial
          | cons s ss =>
              obtain ⟨_, hs⟩ := hparts _ .first
              refine SettlesAt.bind hs.execute ?_
              intro flow m' hflow _ hfits' hleaves
              cases flow with
              | normal =>
                  obtain ⟨_, hss⟩ := hparts _ (.others hflow)
                  exact hss.executeAll
              | returned v => exact .done (.refl m') hfits' hleaves

/-- Every moment that is ready settles. -/
theorem Ready.settles (hx : W.Ready Γ x) : W.Settles Γ x := by
  induction hn : x.fuel using Nat.strongRecOn generalizing x Γ with
  | ind n ih =>
      refine settles_of_parts hx ?_
      intro y Γ' hpart hy
      exact ih y.fuel (hn ▸ hpart.fuel_lt) hy rfl

/-- Whatever a moment that is ready comes to is ready too. -/
theorem Ready.within (hx : W.Ready Γ x) (h : Within x y) : ∃ Γ', W.Ready Γ' y := by
  induction h with
  | refl => exact ⟨Γ, hx⟩
  | tail _ hpart ih =>
      obtain ⟨Γ', hready⟩ := ih
      exact ready_of_part hready (fun _ _ _ hz => hz.settles) hpart

end Lox.Setting
