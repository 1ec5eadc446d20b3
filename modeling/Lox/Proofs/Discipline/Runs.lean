import Lox.Proofs.Discipline.Parts

namespace Lox.Discipline

variable {D : Discipline} {m m' : Machine} {n : Nat} {x y : Moment} {v : Value} {vs : List Value}
  {α β : Type} {P : α → Heap → Prop} {Q : β → Heap → Prop}

theorem EndsAt.followed {ending : Ending α} (hfollows : m.Follows m')
    (h : D.EndsAt m' P ending) : D.EndsAt m P ending := by
  cases ending with
  | done a m'' | failed fault m'' => exact ⟨hfollows.trans h.1, h.2⟩
  | unfinished => trivial

theorem EndsAt.mono {P' : α → Heap → Prop} {ending : Ending α} (h : D.EndsAt m P ending)
    (hP : ∀ a h, P a h → P' a h) : D.EndsAt m P' ending := by
  cases ending with
  | done a m' => exact ⟨h.1, h.2.1, hP a _ h.2.2⟩
  | failed fault m' => exact h
  | unfinished => trivial

theorem EndsAt.bind {r : Run α} {k : α → Run β} (h : D.EndsAt m P (r m))
    (hk : ∀ a m', r m = .done a m' → m.Follows m' → D.Keeps m' → P a m'.heap →
      D.EndsAt m' Q (k a m')) : D.EndsAt m Q ((r >>= k) m) := by
  rw [Run.bind_apply]
  cases hr : r m with
  | done a m' =>
      rw [hr] at h
      exact (hk a m' hr h.1 h.2.1 h.2.2).followed h.1
  | failed fault m' =>
      rw [hr] at h
      exact h
  | unfinished => trivial

theorem EndsAt.done {a : α} (hm : D.Keeps m) (h : P a m.heap) : D.EndsAt m P (.done a m) :=
  ⟨.refl m, hm, h⟩

/-- Most faults say nothing about operators. -/
theorem explains_of_ne {fault : Diagnostic}
    (h : ∀ t, fault ≠ .runtime t .notUnaryOperator ∧ fault ≠ .runtime t .notBinaryOperator) :
    D.Explains fault :=
  ⟨fun t ht => absurd ht (h t).1, fun t ht => absurd ht (h t).2⟩

theorem EndsAt.fail {fault : Diagnostic} (hm : D.Keeps m) (h : D.Explains fault) :
    D.EndsAt m P (Run.fail fault m) :=
  ⟨.refl m, hm, h⟩

theorem allows_ofLiteral (h : Heap) (value : Literal) : D.Allows h (.ofLiteral value) := by
  cases value <;> trivial

/-- What an operator gives is a value without anything in it, and it fails as no operator only if
it is none. -/
theorem EndsAt.unary {operator : Token} (hm : D.Keeps m) (hmark : D.mark (.unary operator)) :
    D.EndsAt m (fun v h => D.Allows h v)
      (Run.ofExcept operator (Operator.unary operator.kind v) m) := by
  unfold Operator.unary
  split
  · exact .done hm trivial
  · split
    · exact .done hm trivial
    · exact .fail hm (explains_of_ne (by simp))
  · rename_i hbang hminus
    refine .fail hm ⟨fun t ht => ?_, fun _ ht => nomatch ht⟩
    cases ht
    refine ⟨hmark, ?_⟩
    simpa [Parsing.unaryOperators] using ⟨hbang, hminus⟩

theorem EndsAt.arithmetic {operator : Token} (hmark : D.mark (.binary operator))
    (hne : operator.kind ≠ .symbol .equalEqual ∧ operator.kind ≠ .symbol .bangEqual ∧
      operator.kind ≠ .symbol .plus) {a b : Float} (hm : D.Keeps m) :
    D.EndsAt m (fun v h => D.Allows h v)
      (Run.ofExcept operator (Operator.arithmetic operator.kind a b) m) := by
  unfold Operator.arithmetic
  split
  case h_3 =>
    split
    · exact .fail hm (explains_of_ne (by simp))
    · exact .done hm trivial
  case h_8 =>
    refine .fail hm ⟨(fun _ ht => nomatch ht), fun t ht => ?_⟩
    cases ht
    refine ⟨hmark, ?_⟩
    simp_all [binaryOperators]
  all_goals exact .done hm trivial

theorem EndsAt.binary {operator : Token} {left right : Value} (hm : D.Keeps m)
    (hmark : D.mark (.binary operator)) :
    D.EndsAt m (fun v h => D.Allows h v)
      (Run.ofExcept operator (Operator.binary operator.kind left right) m) := by
  unfold Operator.binary
  split
  · exact .done hm trivial
  · exact .done hm trivial
  · unfold Operator.plus
    repeat' split
    all_goals first
      | exact .done hm trivial
      | exact .fail hm (explains_of_ne (by simp))
  · rename_i hequal hbang hplus
    split
    · split
      · exact EndsAt.arithmetic hmark ⟨hequal, hbang, hplus⟩ hm
      · exact .fail hm (explains_of_ne (by simp))
    · exact .fail hm (explains_of_ne (by simp))

theorem explains_of_checkCall {callee : Value} {count : Nat} {paren : Token} {fault : Diagnostic}
    (h : Run.checkCall callee count paren m = .failed fault m') : D.Explains fault := by
  refine explains_of_ne fun t => ?_
  unfold Run.checkCall at h
  repeat' split at h
  all_goals
    cases h
    try simp

theorem lookUp_ends {node : NodeId} {name : Token} (hm : D.Keeps m) :
    D.EndsAt m (fun v h => D.Allows h v) (Run.lookUp node name m) := by
  unfold Run.lookUp
  dsimp only
  split
  · rename_i v hfound
    refine .done hm ?_
    split at hfound
    · obtain ⟨scope, hscope, hown⟩ := Option.bind_eq_some_iff.mp hfound
      have hscope := hm.stores.ancestor? hm.current hscope
      exact hm.stores.bound scope _ v hscope hown
    · rw [Scopes.get?_of_root (Scopes.enclosing?_globalScope _)] at hfound
      exact hm.stores.bound globalScope _ v D.outermost hfound
  · exact .fail hm (explains_of_ne (by simp [Diagnostic.undefined]))

theorem assign_ends {node : NodeId} {name : Token} (hx : D.Admits ⟨n, .assign node name v, m⟩) :
    D.EndsAt m (fun _ h => D.Allows h v) (Run.assign node name v m) := by
  have hm := hx.keeps
  obtain ⟨hname, hv⟩ := id hx.task
  unfold Run.assign
  dsimp only
  split
  · rename_i scope htarget
    have hplace : Moment.MayBind ⟨n, .assign node name v, m⟩ scope ∧ D.scope scope := by
      split at htarget
      · exact ⟨.inr (.inl ⟨_, htarget⟩), hm.stores.ancestor? hm.current htarget⟩
      · rw [Scopes.owner?_of_root (Scopes.enclosing?_globalScope _)] at htarget
        split at htarget <;> cases htarget
        exact ⟨.inl rfl, D.outermost⟩
    have hheap := D.heap_define v hx.moment hplace.1 hplace.2 (.inr hname) hm.stores.heap
    exact ⟨.of_resumes (Run.define_resumes scope name.lexeme v m) rfl,
      ⟨hm.current, hm.stores.define name.lexeme hv hheap⟩, hv.extends (m.heap.extends_define _ _ v)⟩
  · exact .fail hm (explains_of_ne (by simp [Diagnostic.undefined]))

theorem follows_bind (m : Machine) (r : Routine) (receiver : Value) :
    m.Follows (m.bind r receiver) :=
  .of_resumes (Run.resumes_closed.bindMethod r receiver m) rfl

theorem bindMethod_ends {r : Routine} {receiver : Value}
    (hx : D.Admits ⟨n, .bindMethod r receiver, m⟩) :
    D.EndsAt m (fun f h => D.Allows h (.function f)) (Run.bindMethod r receiver m) := by
  obtain ⟨⟨name, hr⟩, hreceiver⟩ := id hx.task
  rw [Run.bindMethod_apply]
  exact ⟨follows_bind m r receiver, hx.keeps.bind hx.moment hr.toAllowsRoutine hreceiver,
    hr.bind hx.keeps receiver⟩

theorem getProperty_ends {object : Value} {name : Token} (hm : D.Keeps m)
    (hobject : D.Allows m.heap object)
    (hmethod : ∀ inst c r, object = .instance_ inst c →
      (m.instances[inst]?).bind (fun fields => fields.find? name.lexeme) = none →
      c.methods.find? name.lexeme = some r →
      D.EndsAt m (fun f h => D.Allows h (.function f)) (Run.bindMethod r object m)) :
    D.EndsAt m (fun v h => D.Allows h v) (Run.getProperty object name m) := by
  cases object with
  | instance_ inst c =>
      simp only [Run.getProperty, Run.bind_apply, Run.field?]
      cases hfield : (m.instances[inst]?).bind fun fields => fields.find? name.lexeme with
      | some v =>
          obtain ⟨fields, hfields, hv⟩ := Option.bind_eq_some_iff.mp hfield
          exact .done hm (hm.stores.fields inst fields _ v hobject.1 hfields hv)
      | none =>
          cases hfind : c.methods.find? name.lexeme with
          | none => exact .fail hm (explains_of_ne (by simp))
          | some r =>
              refine EndsAt.bind (hmethod inst c r rfl hfield hfind) ?_
              intro f m' _ _ hm' hf
              exact .done hm' hf
  | _ => exact .fail hm (explains_of_ne (by simp))

theorem setField_ends {inst : Identity} {name : String} (hm : D.Keeps m) (hinst : D.object inst)
    (hv : D.Allows m.heap v) :
    D.EndsAt m (fun _ h => D.Allows h v) (Run.setField inst name v m) :=
  ⟨⟨⟨.refl _, rfl, rfl, rfl⟩, by simp⟩, ⟨hm.current, hm.stores.setField hinst name hv⟩,
    hv.extends (m.heap.extends_setField inst name v)⟩

theorem ends_of_expression_parts {e : Expr NodeId} (hx : D.Admits ⟨n + 1, .evaluate e, m⟩)
    (ih : D.PartsEnd ⟨n + 1, .evaluate e, m⟩) : D.Ends ⟨n + 1, .evaluate e, m⟩ := by
  have hparts : ∀ y, Part ⟨n + 1, .evaluate e, m⟩ y → D.Ends y :=
    fun y hpart => ih y hpart (admits_of_expression_part hx ih hpart)
  have hm := hx.keeps
  have hmarked : D.Marked e.marks := hx.task
  rw [ends_evaluate_iff]
  cases e with
  | literal value => exact .done hm (allows_ofLiteral _ value)
  | grouping inner =>
      show D.EndsAt m _ (evaluate n inner m)
      exact ends_evaluate_iff.mp (hparts _ .grouping)
  | unary operator operand =>
      refine EndsAt.bind (ends_evaluate_iff.mp (hparts _ .operand)) ?_
      intro v m' _ _ hm' _
      exact .unary hm' (hmarked _ List.mem_cons_self)
  | binary left operator right =>
      refine EndsAt.bind (ends_evaluate_iff.mp (hparts _ .left)) ?_
      intro a m' ha _ _ _
      refine EndsAt.bind (ends_evaluate_iff.mp (hparts _ (.right ha))) ?_
      intro b m'' _ _ hm'' _
      exact .binary hm'' (hmarked _ List.mem_cons_self)
  | logical left operator right =>
      refine EndsAt.bind (ends_evaluate_iff.mp (hparts _ .deciding)) ?_
      intro v m' hv _ hm' hvalue
      by_cases hdecides : Operator.decides operator.kind v
      · rw [if_pos hdecides]
        exact .done hm' hvalue
      · rw [if_neg hdecides]
        exact ends_evaluate_iff.mp (hparts _ (.undecided hv (by simpa using hdecides)))
  | var node name => exact lookUp_ends hm
  | assign node name value =>
      refine EndsAt.bind (ends_evaluate_iff.mp (hparts _ .assigned)) ?_
      intro v m' hv _ _ _
      have hassign := admits_of_expression_part hx ih (.assign hv)
      refine EndsAt.bind (assign_ends hassign) ?_
      intro _ m'' _ _ hm'' hvalue'
      exact .done hm'' hvalue'
  | call callee paren arguments =>
      refine EndsAt.bind (ends_evaluate_iff.mp (hparts _ .callee)) ?_
      intro v m' hv _ _ _
      refine EndsAt.bind (ends_evaluateAll_iff.mp (hparts _ (.arguments hv))) ?_
      intro vs m'' hvs _ _ _
      exact ends_callValue_iff.mp (hparts _ (.call hv hvs))
  | get object name =>
      refine EndsAt.bind (ends_evaluate_iff.mp (hparts _ .object)) ?_
      intro v m' hv _ hm' hvalue
      refine getProperty_ends hm' hvalue ?_
      rintro inst c r rfl hfield hr
      exact ends_bindMethod_iff.mp (hparts _ (.method hv hfield hr))
  | set object name value =>
      refine EndsAt.bind (ends_evaluate_iff.mp (hparts _ .holder)) ?_
      intro object m' hv _ hm' hobject
      cases object with
      | instance_ inst c =>
          refine EndsAt.bind (ends_evaluate_iff.mp (hparts _ (.held hv))) ?_
          intro v m'' _ _ hm'' hvalue
          refine EndsAt.bind (setField_ends hm'' hobject.1 hvalue) ?_
          intro _ m₃ _ _ hm₃ hvalue
          exact .done hm₃ hvalue
      | _ => exact .fail hm' (explains_of_ne (by simp))
  | this node keyword => exact lookUp_ends hm

theorem EndsAt.inScope {s : ScopeId} {body : Run α} (hm : D.Keeps m)
    (h : D.EndsAt { m with current := s } P (body { m with current := s })) :
    D.EndsAt m P (Run.inScope s body m) := by
  unfold Run.inScope
  dsimp only
  cases hbody : body { m with current := s } with
  | done a m' =>
      rw [hbody] at h
      obtain ⟨⟨⟨hscopes, hhops, -, hdepth⟩, hinstances⟩, hm', ha⟩ := h
      exact ⟨⟨⟨hscopes, hhops, rfl, hdepth⟩, hinstances⟩, hm'.inScope hm.current, ha⟩
  | failed fault m' =>
      rw [hbody] at h
      obtain ⟨⟨⟨hscopes, hhops, -, hdepth⟩, hinstances⟩, hm', hfault⟩ := h
      exact ⟨⟨⟨hscopes, hhops, rfl, hdepth⟩, hinstances⟩, hm'.inScope hm.current, hfault⟩
  | unfinished => trivial

theorem EndsAt.counted {body : Run α} (h : D.EndsAt m.countCall P (body m.countCall)) :
    D.EndsAt m P (Run.counted body m) := by
  unfold Run.counted
  cases hbody : body { m with depth := m.depth + 1 } with
  | done a m' =>
      rw [Machine.countCall, hbody] at h
      obtain ⟨⟨⟨hscopes, hhops, hcurrent, hdepth⟩, hinstances⟩, hm', ha⟩ := h
      exact ⟨⟨⟨hscopes, hhops, hcurrent, by simp [hdepth]⟩, hinstances⟩,
        ⟨hm'.current, hm'.stores⟩, ha⟩
  | failed fault m' =>
      rw [Machine.countCall, hbody] at h
      obtain ⟨⟨⟨hscopes, hhops, hcurrent, hdepth⟩, hinstances⟩, hm', hfault⟩ := h
      exact ⟨⟨⟨hscopes, hhops, hcurrent, by simp [hdepth]⟩, hinstances⟩,
        ⟨hm'.current, hm'.stores⟩, hfault⟩
  | unfinished => trivial

theorem result_ends {r : Routine} {flow : Flow} (hm : D.Keeps m) (hr : D.AllowsRoutine r)
    (hflow : ∀ v ∈ flow.values, D.Allows m.heap v) :
    D.EndsAt m (fun v h => D.Allows h v) (Run.result r flow m) := by
  unfold Run.result
  split
  · refine .done hm ?_
    cases hthis : m.scopes.getAt? r.scope 0 Resolution.thisName with
    | none => trivial
    | some v => exact hm.stores.bound r.scope _ v hr.scope hthis
  · cases flow with
    | normal => exact .done hm trivial
    | returned v => exact .done hm (hflow v List.mem_cons_self)

theorem ends_of_routine_parts {r : Routine} (hx : D.Admits ⟨n + 1, .runRoutine r vs, m⟩)
    (ih : D.PartsEnd ⟨n + 1, .runRoutine r vs, m⟩) : D.Ends ⟨n + 1, .runRoutine r vs, m⟩ := by
  have hbody := admits_of_part hx ih .body
  have hends := ends_executeAll_iff.mp (ih _ .body hbody)
  obtain ⟨hr, -⟩ := hx.task
  rw [ends_runRoutine_iff, runRoutine_succ]
  have hfollows : m.Follows { m with
      scopes := (m.scopes.push (some r.scope)).defineAll m.scopes.size r.declaration.params vs } :=
    .of_resumes ⟨Setting.extends_enterCall m r vs, rfl, rfl, rfl⟩ rfl
  have hstart : D.Keeps { m with
      scopes := (m.scopes.push (some r.scope)).defineAll m.scopes.size r.declaration.params vs } :=
    hbody.keeps.inScope hx.keeps.current
  refine EndsAt.followed hfollows (EndsAt.bind (EndsAt.inScope hstart hends) ?_)
  intro flow m' _ _ hm' hflow
  exact result_ends hm' hr.toAllowsRoutine hflow

theorem ends_of_call_parts {callee : Value} (hx : D.Admits ⟨n + 1, .invoke callee vs, m⟩)
    (ih : D.PartsEnd ⟨n + 1, .invoke callee vs, m⟩) : D.Ends ⟨n + 1, .invoke callee vs, m⟩ := by
  have hparts : ∀ y, Part ⟨n + 1, .invoke callee vs, m⟩ y → D.Ends y :=
    fun y hpart => ih y hpart (admits_of_call_part hx hpart)
  have hm := hx.keeps
  obtain ⟨hcallee, -⟩ := hx.task
  rw [ends_invoke_iff]
  cases callee with
  | native f => exact ⟨.of_resumes ⟨.refl _, rfl, rfl, rfl⟩ rfl, ⟨hm.current, hm.stores⟩, trivial⟩
  | function f => exact ends_runRoutine_iff.mp (hparts _ .function)
  | class_ c =>
      have hadd : m.Follows m.addInstance :=
        ⟨⟨.refl _, rfl, rfl, rfl⟩, m.heap.extends_addInstance.instances⟩
      rw [invoke_class]
      cases hr : c.initializer? with
      | none => exact ⟨hadd, hm.addInstance, hm.allows_instance hcallee⟩
      | some r =>
          have hbind := hadd.trans (follows_bind m.addInstance r (.instance_ m.instances.size c))
          refine EndsAt.followed hbind ?_
          refine EndsAt.bind (ends_runRoutine_iff.mp (hparts _ (.initializer hr))) ?_
          intro _ m' _ hfollows hm' _
          refine .done hm' ((hm.allows_instance hcallee).extends ?_)
          exact (m.addInstance.heap.extends_bind r _).trans hfollows.heap
  | _ => exact .done hm trivial

theorem defines_ends {name : Token} {fresh : Identity} (hx : D.moment x)
    (hplace : m.current = x.machine.current) (hm : D.Keeps m) (hname : D.mark (.binder name))
    (hv : D.Allows m.heap v) : D.EndsAt m (fun flow h => ∀ v ∈ Flow.values flow, D.Allows h v)
      (.done .normal
        { m with scopes := m.scopes.define m.current name.lexeme v, fresh := fresh }) := by
  have hbind : x.MayBind m.current := hplace ▸ x.mayBind_current
  have hheap := D.heap_define v hx hbind hm.current (.inl hname) hm.stores.heap
  exact ⟨.of_resumes ⟨.define _ _ _ _, rfl, rfl, rfl⟩ rfl,
    ⟨hm.current, hm.stores.define name.lexeme hv hheap⟩, fun _ hv' => by cases hv'⟩

theorem find?_methods {methods : List (FunctionDecl NodeId)} {make : FunctionDecl NodeId → Routine}
    {table : Bindings Routine} {name : String} {r : Routine}
    (h : (methods.foldl (fun table method => table.insert method.name.lexeme (make method))
      table).find? name = some r) :
    table.find? name = some r ∨
      ∃ method ∈ methods, method.name.lexeme = name ∧ r = make method := by
  induction methods generalizing table with
  | nil => exact .inl h
  | cons method methods ih =>
      rcases ih h with h | ⟨method', hmem, hname⟩
      · rw [Bindings.find?_insert] at h
        split at h
        · rename_i hname
          cases h
          exact .inr ⟨method, List.mem_cons_self, hname, rfl⟩
        · exact .inl h
      · exact .inr ⟨method', List.mem_cons_of_mem _ hmem, hname⟩

theorem ends_of_class {name : Token} {methods : List (FunctionDecl NodeId)}
    (hx : D.Admits ⟨n + 1, .execute (.class_ name methods), m⟩) :
    D.Ends ⟨n + 1, .execute (.class_ name methods), m⟩ := by
  have hm := hx.keeps
  have hmarked : D.Marked (Stmt.class_ name methods).marks := hx.task
  rw [ends_execute_iff]
  refine defines_ends hx.moment rfl hm (hmarked _ List.mem_cons_self) ?_
  intro other r hr
  rcases find?_methods hr with hnone | ⟨method, hmethod, rfl, rfl⟩
  · cases hnone
  · refine ⟨⟨hm.current, hmarked.mono ?_⟩, D.declaredMethod method _⟩
    exact List.subset_cons_of_subset _ (FunctionDecl.marks_subset hmethod)

theorem write_ends (hm : D.Keeps m) (piece : String) :
    D.EndsAt m (fun _ _ => True) (Run.write piece m) := by
  have hfollows : ∀ sink, m.Follows { m with sink } := fun _ =>
    .of_resumes ⟨.refl _, rfl, rfl, rfl⟩ rfl
  unfold Run.write
  dsimp only
  split
  · exact ⟨hfollows _, ⟨hm.current, hm.stores⟩, trivial⟩
  · exact ⟨hfollows _, ⟨hm.current, hm.stores⟩, explains_of_ne (by simp)⟩

theorem writeAll_ends (hm : D.Keeps m) (pieces : List String) :
    D.EndsAt m (fun _ _ => True) (Run.writeAll pieces m) := by
  induction pieces generalizing m with
  | nil => exact .done hm trivial
  | cons piece pieces ih =>
      refine EndsAt.bind (write_ends hm piece) ?_
      intro _ m' _ _ hm' _
      exact ih hm'

theorem print_ends (hm : D.Keeps m) (v : Value) :
    D.EndsAt m (fun _ _ => True) (Run.print v m) :=
  writeAll_ends hm _

theorem ends_of_statement_parts {s : Stmt NodeId} (hx : D.Admits ⟨n + 1, .execute s, m⟩)
    (ih : D.PartsEnd ⟨n + 1, .execute s, m⟩) : D.Ends ⟨n + 1, .execute s, m⟩ := by
  have hparts : ∀ y, Part ⟨n + 1, .execute s, m⟩ y → D.Ends y :=
    fun y hpart => ih y hpart (admits_of_statement_part hx ih hpart)
  have hm := hx.keeps
  have hmarked : D.Marked s.marks := hx.task
  -- a statement that goes on hands nothing on
  have hnormal : ∀ {m' : Machine}, D.Keeps m' →
      D.EndsAt m' (fun flow h => ∀ v ∈ Flow.values flow, D.Allows h v) (.done .normal m') :=
    fun hm' => .done hm' fun _ hv => nomatch hv
  rw [ends_execute_iff]
  cases s with
  | class_ name methods => exact ends_execute_iff.mp (ends_of_class hx)
  | function d =>
      refine defines_ends hx.moment rfl hm (hmarked _ ?_) ?_
      · rw [Stmt.marks, FunctionDecl.marks_eq]
        exact List.mem_cons_self
      · exact ⟨⟨hm.current, hmarked⟩, D.declared _ d _⟩
  | expression e =>
      refine EndsAt.bind (ends_evaluate_iff.mp (hparts _ .expression)) ?_
      intro v m' _ _ hm' _
      exact hnormal hm'
  | print e =>
      refine EndsAt.bind (ends_evaluate_iff.mp (hparts _ .print)) ?_
      intro v m' _ _ hm' _
      refine EndsAt.bind (print_ends hm' v) ?_
      intro _ m'' _ _ hm'' _
      exact hnormal hm''
  | var name initial =>
      cases initial with
      | none => exact defines_ends hx.moment rfl hm (hmarked _ List.mem_cons_self) trivial
      | some e =>
          refine EndsAt.bind (ends_evaluate_iff.mp (hparts _ .initial)) ?_
          intro v m' _ hfollows hm' hv
          exact defines_ends hx.moment hfollows.current hm' (hmarked _ List.mem_cons_self) hv
  | block body =>
      have hbody := admits_of_statement_part hx ih .block
      have hstart : D.Keeps { m with scopes := m.scopes.push (some m.current) } :=
        hbody.keeps.inScope hm.current
      rw [execute_block]
      have hpush : m.Follows { m with scopes := m.scopes.push (some m.current) } :=
        .of_resumes ⟨.push _ _, rfl, rfl, rfl⟩ rfl
      refine EndsAt.followed hpush ?_
      exact EndsAt.inScope hstart (ends_executeAll_iff.mp (hparts _ .block))
  | branch condition consequent alternative =>
      refine EndsAt.bind (ends_evaluate_iff.mp (hparts _ .condition)) ?_
      intro v m' hv _ hm' _
      by_cases htruthy : v.truthy
      · rw [if_pos htruthy]
        exact ends_execute_iff.mp (hparts _ (.consequent hv htruthy))
      · rw [if_neg htruthy]
        cases alternative with
        | none => exact hnormal hm'
        | some alternative => exact ends_execute_iff.mp (hparts _ (.alternative hv htruthy))
  | loop condition body =>
      refine EndsAt.bind (ends_evaluate_iff.mp (hparts _ .loopCondition)) ?_
      intro v m' hv _ hm' _
      by_cases htruthy : v.truthy
      · rw [if_pos htruthy]
        refine EndsAt.bind (ends_execute_iff.mp (hparts _ (.loopBody hv htruthy))) ?_
        intro flow m'' hflow _ hm'' hvalues
        cases flow with
        | normal => exact ends_execute_iff.mp (hparts _ (.loopAgain hv htruthy hflow))
        | returned answer => exact .done hm'' hvalues
      · rw [if_neg htruthy]
        exact hnormal hm'
  | ret keyword value =>
      cases value with
      | none => exact .done hm (List.forall_mem_singleton.mpr trivial)
      | some e =>
          refine EndsAt.bind (ends_evaluate_iff.mp (hparts _ .answer)) ?_
          intro v m' _ _ hm' hv
          exact .done hm' (List.forall_mem_singleton.mpr hv)

/-- A moment ends as the discipline says if its parts do. -/
theorem ends_of_parts (hx : D.Admits x) (ih : D.PartsEnd x) : D.Ends x := by
  obtain ⟨fuel, task, m⟩ := x
  have hm := hx.keeps
  have hparts : ∀ y, Part ⟨fuel, task, m⟩ y → D.Ends y :=
    fun y hpart => ih y hpart (admits_of_part hx ih hpart)
  cases task with
  | lookUp node name => exact ends_lookUp_iff.mpr (lookUp_ends hm)
  | assign node name v =>
      exact ends_assign_iff.mpr ((assign_ends hx).mono fun _ _ _ => trivial)
  | bindMethod r receiver => exact ends_bindMethod_iff.mpr (bindMethod_ends hx)
  | evaluate e =>
      cases fuel with
      | zero => trivial
      | succ n => exact ends_of_expression_parts hx ih
  | execute s =>
      cases fuel with
      | zero => trivial
      | succ n => exact ends_of_statement_parts hx ih
  | invoke callee vs =>
      cases fuel with
      | zero => trivial
      | succ n => exact ends_of_call_parts hx ih
  | runRoutine r vs =>
      cases fuel with
      | zero => trivial
      | succ n => exact ends_of_routine_parts hx ih
  | evaluateAll es =>
      cases fuel with
      | zero => trivial
      | succ n =>
          rw [ends_evaluateAll_iff]
          cases es with
          | nil => exact .done hm fun _ hv => nomatch hv
          | cons e es =>
              refine EndsAt.bind (ends_evaluate_iff.mp (hparts _ .firstOf)) ?_
              intro v m' hv _ _ hvalue
              refine EndsAt.bind (ends_evaluateAll_iff.mp (hparts _ (.othersOf hv))) ?_
              intro vs m'' _ hfollows hm'' hvs
              exact .done hm'' (List.forall_mem_cons.mpr ⟨hvalue.extends hfollows.heap, hvs⟩)
  | callValue callee paren vs =>
      cases fuel with
      | zero => trivial
      | succ n =>
          rw [ends_callValue_iff, callValue, Run.bind_apply]
          cases hcheck : Run.checkCall callee vs.length paren m with
          | done _ m' =>
              obtain ⟨_, rfl⟩ := Run.arity?_of_checkCall hcheck
              exact (ends_invoke_iff.mp (hparts _ (.invoke hcheck))).counted
          | failed fault m' =>
              obtain rfl := Run.machine_of_checkCall hcheck
              exact .fail hm (explains_of_checkCall hcheck)
          | unfinished => trivial
  | executeAll ss =>
      cases fuel with
      | zero => trivial
      | succ n =>
          rw [ends_executeAll_iff]
          cases ss with
          | nil => exact .done hm fun _ hv => nomatch hv
          | cons s ss =>
              refine EndsAt.bind (ends_execute_iff.mp (hparts _ .first)) ?_
              intro flow m' hflow _ hm' hvalues
              cases flow with
              | normal => exact ends_executeAll_iff.mp (hparts _ (.others hflow))
              | returned v => exact .done hm' hvalues

/-- Every moment that is admitted ends as the discipline says. -/
theorem Admits.ends (hx : D.Admits x) : D.Ends x := by
  induction hn : x.fuel using Nat.strongRecOn generalizing x with
  | ind n ih =>
      refine ends_of_parts hx ?_
      intro y hpart hy
      exact ih y.fuel (hn ▸ hpart.fuel_lt) hy rfl

/-- Whatever a moment that is admitted comes to is admitted too. -/
theorem Admits.within (hx : D.Admits x) (h : Within x y) : D.Admits y := by
  induction h with
  | refl => exact hx
  | tail _ hpart ih => exact admits_of_part ih (fun _ _ hz => hz.ends) hpart

end Lox.Discipline
