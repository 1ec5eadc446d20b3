import Lox.Proofs.Relabelling.Machines

/-!
Runs do not depend on labels.

A relabelled program on a relabelled machine ends as the program itself does, with its value and its
machine relabelled. The labels of nodes serve for nothing but to find distances, and those are the
same.
-/

namespace Lox.Relabelling

open Run

variable {α β γ δ : Type} {ρ : Relabelling}

namespace Commutes

variable {g : α → β} {r : Run α} {r' : Run β}

theorem pure (g : α → β) (value : α) :
    ρ.Commutes g (Pure.pure value : Run α) (Pure.pure (g value)) :=
  ⟨fun _ _ => rfl, pure_resumes value⟩

theorem fail (g : α → β) (fault : Diagnostic) :
    ρ.Commutes g (Run.fail fault) (Run.fail fault) :=
  ⟨fun _ _ => rfl, fail_resumes fault⟩

theorem unfinished (g : α → β) : ρ.Commutes g Run.unfinished Run.unfinished :=
  ⟨fun _ _ => rfl, unfinished_resumes⟩

theorem bind {g' : γ → δ} {k : α → Run γ} {k' : β → Run δ} (h : ρ.Commutes g r r')
    (hk : ∀ a, ρ.Commutes g' (k a) (k' (g a))) : ρ.Commutes g' (r >>= k) (r' >>= k') := by
  refine ⟨fun m hm => ?_, h.resumes.bind fun a => (hk a).resumes⟩
  have hresumes := h.resumes m
  rw [bind_apply, bind_apply, h.ending m hm]
  cases hr : r m with
  | done a m₁ =>
      rw [hr] at hresumes
      exact (hk a).ending m₁ (hresumes.hops.trans hm)
  | failed fault m₁ => rfl
  | unfinished => rfl

theorem inScope (h : ρ.Commutes g r r') (s : ScopeId) :
    ρ.Commutes g (Run.inScope s r) (Run.inScope s r') := by
  refine ⟨fun m hm => ?_, h.resumes.inScope s⟩
  have hbody := h.ending { m with current := s } hm
  unfold Run.inScope
  simp only [Machine.relabel] at hbody ⊢
  rw [hbody]
  cases r { m with current := s } <;> rfl

theorem counted (h : ρ.Commutes g r r') : ρ.Commutes g (Run.counted r) (Run.counted r') := by
  refine ⟨fun m hm => ?_, h.resumes.counted⟩
  have hbody := h.ending { m with depth := m.depth + 1 } hm
  unfold Run.counted
  simp only [Machine.relabel] at hbody ⊢
  rw [hbody]
  cases r { m with depth := m.depth + 1 } <;> rfl

end Commutes

/-! ### Elementary steps -/

theorem ofExcept_commutes (place : Token) (result : Except RuntimeFault Value) :
    ρ.Commutes (Value.relabel ρ.label) (ofExcept place result)
      (ofExcept place (result.map (Value.relabel ρ.label))) := by
  cases result with
  | ok value => exact .pure _ value
  | error fault => exact .fail _ _

theorem newScope_commutes (outer : ScopeId) : ρ.Commutes id (newScope outer) (newScope outer) :=
  ⟨fun m _ => by simp [newScope, Machine.relabel, ending], newScope_resumes outer⟩

theorem newInnerScope_commutes : ρ.Commutes id newInnerScope newInnerScope :=
  ⟨fun m hm => (newScope_commutes m.current).ending m hm, newInnerScope_resumes⟩

theorem define_commutes (s : ScopeId) (name : String) (value : Value) :
    ρ.Commutes id (define s name value) (define s name (value.relabel ρ.label)) :=
  ⟨fun m _ => by simp [define, update, Machine.relabel, ending], define_resumes s name value⟩

theorem defineHere_commutes (name : Token) (value : Value) :
    ρ.Commutes id (defineHere name value) (defineHere name (value.relabel ρ.label)) :=
  ⟨fun m hm => (define_commutes m.current name.lexeme value).ending m hm,
    defineHere_resumes name value⟩

theorem defineAll_commutes (s : ScopeId) (params : List Token) (arguments : List Value) :
    ρ.Commutes id (defineAll s params arguments)
      (defineAll s params (arguments.map (Value.relabel ρ.label))) := by
  induction params generalizing arguments with
  | nil => exact .pure _ ()
  | cons param params ih =>
      cases arguments with
      | nil => exact .pure _ ()
      | cons argument arguments =>
          exact (define_commutes s param.lexeme argument).bind fun _ => ih arguments

theorem newIdentity_commutes : ρ.Commutes id newIdentity newIdentity :=
  ⟨fun _ _ => rfl, newIdentity_resumes⟩

theorem newInstance_commutes : ρ.Commutes id newInstance newInstance :=
  ⟨fun m _ => by simp [newInstance, Machine.relabel, ending, Bindings.map_empty],
    newInstance_resumes⟩

theorem field?_commutes (inst : Identity) (name : String) :
    ρ.Commutes (Option.map (Value.relabel ρ.label)) (field? inst name) (field? inst name) := by
  refine ⟨fun m _ => ?_, fun m => .refl m⟩
  simp only [field?, Machine.relabel, ending, Array.getElem?_map]
  cases m.instances[inst]? <;> simp

theorem setField_commutes (inst : Identity) (name : String) (value : Value) :
    ρ.Commutes id (setField inst name value) (setField inst name (value.relabel ρ.label)) := by
  refine ⟨fun m _ => ?_, setField_resumes inst name value⟩
  have hmodify : (m.instances.map (Bindings.map (Value.relabel ρ.label))).modify inst
        (·.insert name (value.relabel ρ.label)) =
      (m.instances.modify inst (·.insert name value)).map
        (Bindings.map (Value.relabel ρ.label)) := by
    refine Array.ext (by simp) fun i hi hi' => ?_
    simp only [Array.getElem_map, Array.getElem_modify]
    split <;> simp
  simp [setField, update, Machine.relabel, ending, hmodify]

theorem readClock_commutes : ρ.Commutes id readClock readClock :=
  ⟨fun _ _ => rfl, readClock_resumes⟩

theorem makeFunction_commutes (declaration : FunctionDecl NodeId) :
    ρ.Commutes (Value.relabel ρ.label) (makeFunction declaration)
      (makeFunction (declaration.relabel ρ.label)) :=
  ⟨fun _ _ => rfl, makeFunction_resumes declaration⟩

theorem methods_relabel (f : NodeId → NodeId) (s : ScopeId) (ds : List (FunctionDecl NodeId))
    (table : Bindings Routine) :
    (FunctionDecl.relabelAll f ds).foldl (fun table method =>
        table.insert method.name.lexeme
          ⟨method, s, method.name.lexeme = Resolution.initializerName⟩)
        (table.map (Routine.relabel f)) =
      (ds.foldl (fun table method =>
        table.insert method.name.lexeme
          ⟨method, s, method.name.lexeme = Resolution.initializerName⟩)
        table).map (Routine.relabel f) := by
  induction ds generalizing table with
  | nil => rfl
  | cons d ds ih =>
      rw [FunctionDecl.relabelAll, List.foldl_cons, List.foldl_cons, ← ih, Bindings.map_insert,
        FunctionDecl.name_relabel]
      rfl

theorem makeClass_commutes (name : Token) (methods : List (FunctionDecl NodeId)) :
    ρ.Commutes (Value.relabel ρ.label) (makeClass name methods)
      (makeClass name (FunctionDecl.relabelAll ρ.label methods)) := by
  refine ⟨fun m _ => ?_, makeClass_resumes name methods⟩
  have htable := methods_relabel ρ.label m.current methods .empty
  simp only [makeClass, Machine.relabel, ending, Value.relabel, Class.relabel, ← htable]
  rfl

theorem lookUp_commutes (node : NodeId) (name : Token) :
    ρ.Commutes (Value.relabel ρ.label) (lookUp node name) (lookUp (ρ.label node) name) := by
  refine ⟨fun m hm => ?_, lookUp_resumes node name⟩
  have hhop : ρ.after[ρ.label node]? = m.hops[node]? := hm ▸ ρ.agree node
  simp only [lookUp, Machine.relabel, hhop, Scopes.getAt?_map, Scopes.get?_map]
  cases m.hops[node]? with
  | some distance =>
      dsimp only
      cases m.scopes.getAt? m.current distance name.lexeme <;> rfl
  | none =>
      dsimp only
      cases m.scopes.get? globalScope name.lexeme <;> rfl

theorem assign_commutes (node : NodeId) (name : Token) (value : Value) :
    ρ.Commutes id (assign node name value)
      (assign (ρ.label node) name (value.relabel ρ.label)) := by
  refine ⟨fun m hm => ?_, assign_resumes node name value⟩
  have hhop : ρ.after[ρ.label node]? = m.hops[node]? := hm ▸ ρ.agree node
  simp only [assign, Machine.relabel, hhop, Scopes.ancestor?_map, Scopes.owner?_map]
  split <;> simp [ending, Machine.relabel]

theorem write_commutes (piece : String) : ρ.Commutes id (write piece) (write piece) := by
  refine ⟨fun m _ => ?_, write_resumes piece⟩
  cases haccepts : m.sink.accepts piece <;> simp [write, Machine.relabel, ending, haccepts]

theorem writeAll_commutes (pieces : List String) :
    ρ.Commutes id (writeAll pieces) (writeAll pieces) := by
  induction pieces with
  | nil => exact .pure _ ()
  | cons piece pieces ih => exact (write_commutes piece).bind fun _ => ih

theorem print_commutes (value : Value) :
    ρ.Commutes id (print value) (print (value.relabel ρ.label)) := by
  unfold print
  rw [Value.pieces_relabel]
  exact writeAll_commutes _

theorem bindMethod_commutes (routine : Routine) (receiver : Value) :
    ρ.Commutes (Closure.relabel ρ.label) (bindMethod routine receiver)
      (bindMethod (routine.relabel ρ.label) (receiver.relabel ρ.label)) :=
  (newScope_commutes routine.scope).bind fun s =>
    (define_commutes s _ receiver).bind fun _ =>
      newIdentity_commutes.bind fun identity =>
        .pure _ (Closure.mk identity { routine with scope := s })

theorem getProperty_commutes (object : Value) (name : Token) :
    ρ.Commutes (Value.relabel ρ.label) (getProperty object name)
      (getProperty (object.relabel ρ.label) name) := by
  cases object with
  | instance_ inst c =>
      refine (field?_commutes inst name.lexeme).bind fun found => ?_
      cases found with
      | some value => exact .pure _ value
      | none =>
          have hmethod : (c.relabel ρ.label).methods.find? name.lexeme =
              (c.methods.find? name.lexeme).map (Routine.relabel ρ.label) :=
            Bindings.find?_map _ _ _
          dsimp only [Option.map_none]
          rw [hmethod]
          cases c.methods.find? name.lexeme with
          | some method =>
              exact (bindMethod_commutes method (.instance_ inst c)).bind fun closure =>
                .pure _ (Value.function closure)
          | none => exact .fail _ _
  | _ => exact .fail _ _

theorem checkCall_commutes (callee : Value) (count : Nat) (paren : Token) :
    ρ.Commutes id (checkCall callee count paren)
      (checkCall (callee.relabel ρ.label) count paren) := by
  refine ⟨fun m _ => ?_, checkCall_resumes callee count paren⟩
  simp only [checkCall, Value.arity?_relabel]
  cases callee.arity? with
  | none => rfl
  | some arity =>
      dsimp only
      by_cases hcount : count ≠ arity
      · rw [if_pos hcount, if_pos hcount]
        rfl
      · rw [if_neg hcount, if_neg hcount]
        by_cases hdepth : callLimit ≤ m.depth
        · rw [if_pos hdepth, if_pos (show callLimit ≤ (ρ.machine m).depth from hdepth)]
          rfl
        · rw [if_neg hdepth, if_neg (show ¬callLimit ≤ (ρ.machine m).depth from hdepth)]
          rfl

theorem result_commutes (routine : Routine) (flow : Flow) :
    ρ.Commutes (Value.relabel ρ.label) (result routine flow)
      (result (routine.relabel ρ.label) (flow.relabel ρ.label)) := by
  refine ⟨fun m _ => ?_, result_resumes routine flow⟩
  have hinitializes : (routine.relabel ρ.label).initializes = routine.initializes := rfl
  have hthis : (ρ.machine m).scopes.getAt? (routine.relabel ρ.label).scope 0 Resolution.thisName =
      (m.scopes.getAt? routine.scope 0 Resolution.thisName).map (Value.relabel ρ.label) :=
    Scopes.getAt?_map _ _ _ _ 0
  simp only [result, hinitializes, hthis]
  split
  · cases m.scopes.getAt? routine.scope 0 Resolution.thisName <;> rfl
  · cases flow <;> rfl

/-! ### All that is run -/

/-- Whatever is run with this fuel does not depend on labels. -/
structure AllCommute (ρ : Relabelling) (n : Nat) : Prop where
  evaluate : ∀ e, ρ.Commutes (Value.relabel ρ.label) (evaluate n e) (evaluate n (e.relabel ρ.label))
  evaluateAll : ∀ es, ρ.Commutes (List.map (Value.relabel ρ.label)) (evaluateAll n es)
    (evaluateAll n (Expr.relabelAll ρ.label es))
  callValue : ∀ callee paren arguments,
    ρ.Commutes (Value.relabel ρ.label) (callValue n callee paren arguments)
      (callValue n (callee.relabel ρ.label) paren (arguments.map (Value.relabel ρ.label)))
  invoke : ∀ callee arguments,
    ρ.Commutes (Value.relabel ρ.label) (invoke n callee arguments)
      (invoke n (callee.relabel ρ.label) (arguments.map (Value.relabel ρ.label)))
  runRoutine : ∀ r arguments,
    ρ.Commutes (Value.relabel ρ.label) (runRoutine n r arguments)
      (runRoutine n (r.relabel ρ.label) (arguments.map (Value.relabel ρ.label)))
  execute : ∀ s, ρ.Commutes (Flow.relabel ρ.label) (execute n s) (execute n (s.relabel ρ.label))
  executeAll : ∀ ss, ρ.Commutes (Flow.relabel ρ.label) (executeAll n ss)
    (executeAll n (Stmt.relabelAll ρ.label ss))

variable {n : Nat}

theorem evaluate_commutes (ih : ρ.AllCommute n) (e : Expr NodeId) :
    ρ.Commutes (Value.relabel ρ.label) (evaluate (n + 1) e)
      (evaluate (n + 1) (e.relabel ρ.label)) := by
  cases e with
  | literal value =>
      have hvalue := Commutes.pure (ρ := ρ) (Value.relabel ρ.label) (Value.ofLiteral value)
      rwa [Value.ofLiteral_relabel] at hvalue
  | grouping inner => exact ih.evaluate inner
  | unary operator operand =>
      refine (ih.evaluate operand).bind fun v => ?_
      rw [Operator.unary_relabel]
      exact ofExcept_commutes operator _
  | binary left operator right =>
      refine (ih.evaluate left).bind fun a => (ih.evaluate right).bind fun b => ?_
      rw [Operator.binary_relabel]
      exact ofExcept_commutes operator _
  | logical left operator right =>
      refine (ih.evaluate left).bind fun v => ?_
      rw [Operator.decides_relabel]
      split
      · exact .pure _ v
      · exact ih.evaluate right
  | var node name => exact lookUp_commutes node name
  | assign node name value =>
      exact (ih.evaluate value).bind fun v =>
        (assign_commutes node name v).bind fun _ => .pure _ v
  | call callee paren arguments =>
      exact (ih.evaluate callee).bind fun v =>
        (ih.evaluateAll arguments).bind fun vs => ih.callValue v paren vs
  | get object name => exact (ih.evaluate object).bind fun v => getProperty_commutes v name
  | set object name value =>
      refine (ih.evaluate object).bind fun holder => ?_
      cases holder with
      | instance_ inst c =>
          exact (ih.evaluate value).bind fun v =>
            (setField_commutes inst name.lexeme v).bind fun _ => .pure _ v
      | _ => exact .fail _ _
  | this node keyword => exact lookUp_commutes node keyword

theorem evaluateAll_commutes (ih : ρ.AllCommute n) (es : List (Expr NodeId)) :
    ρ.Commutes (List.map (Value.relabel ρ.label)) (evaluateAll (n + 1) es)
      (evaluateAll (n + 1) (Expr.relabelAll ρ.label es)) := by
  cases es with
  | nil => exact .pure _ []
  | cons e es =>
      exact (ih.evaluate e).bind fun v =>
        (ih.evaluateAll es).bind fun vs => .pure _ (v :: vs)

theorem callValue_commutes (ih : ρ.AllCommute n) (callee : Value) (paren : Token)
    (arguments : List Value) :
    ρ.Commutes (Value.relabel ρ.label) (callValue (n + 1) callee paren arguments)
      (callValue (n + 1) (callee.relabel ρ.label) paren
        (arguments.map (Value.relabel ρ.label))) := by
  have hcheck := checkCall_commutes (ρ := ρ) callee arguments.length paren
  rw [callValue, callValue, List.length_map]
  exact hcheck.bind fun _ => (ih.invoke callee arguments).counted

theorem invoke_commutes (ih : ρ.AllCommute n) (callee : Value) (arguments : List Value) :
    ρ.Commutes (Value.relabel ρ.label) (invoke (n + 1) callee arguments)
      (invoke (n + 1) (callee.relabel ρ.label) (arguments.map (Value.relabel ρ.label))) := by
  cases callee with
  | native f => exact readClock_commutes.bind fun time => .pure _ (Value.number time)
  | function f => exact ih.runRoutine f.routine arguments
  | class_ c =>
      refine newInstance_commutes.bind fun inst => ?_
      dsimp only [id_eq]
      rw [Class.initializer?_relabel]
      cases c.initializer? with
      | none => exact .pure _ (Value.instance_ inst c)
      | some routine =>
          exact (bindMethod_commutes routine (.instance_ inst c)).bind fun closure =>
            (ih.runRoutine closure.routine arguments).bind fun _ =>
              .pure _ (Value.instance_ inst c)
  | nil | boolean | number | string | instance_ => exact .pure _ Value.nil

theorem runRoutine_commutes (ih : ρ.AllCommute n) (r : Routine) (arguments : List Value) :
    ρ.Commutes (Value.relabel ρ.label) (runRoutine (n + 1) r arguments)
      (runRoutine (n + 1) (r.relabel ρ.label) (arguments.map (Value.relabel ρ.label))) := by
  have hbody := ih.executeAll r.declaration.body
  have hparams : (r.relabel ρ.label).declaration.params = r.declaration.params :=
    FunctionDecl.params_relabel _ _
  rw [← FunctionDecl.body_relabel] at hbody
  rw [runRoutine, runRoutine, hparams]
  exact (newScope_commutes r.scope).bind fun s =>
    (defineAll_commutes s r.declaration.params arguments).bind fun _ =>
      (hbody.inScope s).bind fun flow => result_commutes r flow

theorem execute_commutes (ih : ρ.AllCommute n) (s : Stmt NodeId) :
    ρ.Commutes (Flow.relabel ρ.label) (execute (n + 1) s)
      (execute (n + 1) (s.relabel ρ.label)) := by
  cases s with
  | expression e => exact (ih.evaluate e).bind fun _ => .pure _ Flow.normal
  | print e =>
      exact (ih.evaluate e).bind fun v => (print_commutes v).bind fun _ => .pure _ Flow.normal
  | var name initial =>
      cases initial with
      | none => exact (defineHere_commutes name .nil).bind fun _ => .pure _ Flow.normal
      | some e =>
          exact (ih.evaluate e).bind fun v =>
            (defineHere_commutes name v).bind fun _ => .pure _ Flow.normal
  | block body => exact newInnerScope_commutes.bind fun s => (ih.executeAll body).inScope s
  | branch condition consequent alternative =>
      cases alternative with
      | none =>
          refine (ih.evaluate condition).bind fun v => ?_
          rw [Value.truthy_relabel]
          split
          · exact ih.execute consequent
          · exact .pure _ Flow.normal
      | some alternative =>
          refine (ih.evaluate condition).bind fun v => ?_
          rw [Value.truthy_relabel]
          split
          · exact ih.execute consequent
          · exact ih.execute alternative
  | loop condition body =>
      refine (ih.evaluate condition).bind fun v => ?_
      rw [Value.truthy_relabel]
      split
      · refine (ih.execute body).bind fun flow => ?_
        cases flow with
        | normal => exact ih.execute (.loop condition body)
        | returned v => exact .pure _ (Flow.returned v)
      · exact .pure _ Flow.normal
  | function declaration =>
      have hdefine := fun v => defineHere_commutes (ρ := ρ) declaration.name v
      rw [Stmt.relabel, execute, execute, FunctionDecl.name_relabel]
      exact (makeFunction_commutes declaration).bind fun v =>
        (hdefine v).bind fun _ => .pure _ Flow.normal
  | ret keyword value =>
      cases value with
      | none => exact .pure _ (Flow.returned .nil)
      | some e => exact (ih.evaluate e).bind fun v => .pure _ (Flow.returned v)
  | class_ name methods =>
      exact (makeClass_commutes name methods).bind fun v =>
        (defineHere_commutes name v).bind fun _ => .pure _ Flow.normal

theorem executeAll_commutes (ih : ρ.AllCommute n) (ss : List (Stmt NodeId)) :
    ρ.Commutes (Flow.relabel ρ.label) (executeAll (n + 1) ss)
      (executeAll (n + 1) (Stmt.relabelAll ρ.label ss)) := by
  cases ss with
  | nil => exact .pure _ Flow.normal
  | cons s ss =>
      refine (ih.execute s).bind fun flow => ?_
      cases flow with
      | normal => exact ih.executeAll ss
      | returned v => exact .pure _ (Flow.returned v)

/-- By induction on the fuel: a run does not depend on the labels of its program. -/
theorem allCommute (ρ : Relabelling) (n : Nat) : ρ.AllCommute n := by
  induction n with
  | zero =>
      constructor
      all_goals
        intros
        exact .unfinished _
  | succ n ih =>
      exact ⟨evaluate_commutes ih, evaluateAll_commutes ih, callValue_commutes ih,
        invoke_commutes ih, runRoutine_commutes ih, execute_commutes ih, executeAll_commutes ih⟩

theorem interpret_machine (fuel : Nat) (program : List (Stmt NodeId)) {m : Machine}
    (hm : m.hops = ρ.before) :
    Machine.interpret fuel (Stmt.relabelAll ρ.label program) (ρ.machine m) =
      ρ.ending id (Machine.interpret fuel program m) := by
  have hrun := ((allCommute ρ fuel).executeAll program).ending m hm
  unfold Machine.interpret
  rw [hrun]
  cases executeAll fuel program m with
  | done flow m' | failed fault m' =>
      -- both machines have the same sink
      by_cases hflush : m'.atRest.sink.flushes
      · have hflush' : (ρ.machine m').atRest.sink.flushes := hflush
        simp only [ending, hflush, hflush', if_true]
        rfl
      · have hflush' : ¬(ρ.machine m').atRest.sink.flushes := hflush
        simp only [ending, hflush, hflush']
        rfl
  | unfinished => rfl

end Lox.Relabelling
