import Lox.Proofs.Running.Distances
import Lox.Proofs.Scoping.Occurrences

namespace Lox

/-- Text was only added to what is written, and the new globals are among `names`. -/
structure Machine.Grows (names : List String) (m m' : Machine) : Prop where
  text : ∃ piece, m'.sink.text = m.sink.text ++ piece
  globals : ∀ name, (m'.scopes.own? globalScope name).isSome →
    (m.scopes.own? globalScope name).isSome ∨ name ∈ names

/-- What statements that declare these names add to the globals. -/
def Machine.declares (m : Machine) (names : List Token) : List String :=
  if m.current = globalScope then names.map Token.lexeme else []

/-- However the run ends, its machine has grown. -/
def Ending.Grows {α : Type} (names : List String) (m : Machine) : Ending α → Prop
  | .done _ m' => m.Grows names m'
  | .failed _ m' => m.Grows names m'
  | .unfinished => True

section

variable {α β : Type} {names more : List String} {m m' m'' : Machine} {s : ScopeId} {name : String}
  {v : Value}

namespace Machine

theorem Grows.refl (names : List String) (m : Machine) : m.Grows names m :=
  ⟨⟨"", String.append_empty.symm⟩, fun _ h => .inl h⟩

theorem Grows.trans (h : m.Grows names m') (h' : m'.Grows names m'') : m.Grows names m'' := by
  obtain ⟨piece, hpiece⟩ := h.text
  obtain ⟨piece', hpiece'⟩ := h'.text
  refine ⟨⟨piece ++ piece', by rw [hpiece', hpiece, String.append_assoc]⟩, fun name hname => ?_⟩
  rcases h'.globals name hname with hname | hname
  · exact h.globals name hname
  · exact .inr hname

theorem Grows.globalNames_subset (h : m.Grows names m') :
    m'.globalNames ⊆ names ++ m.globalNames := by
  intro name hname
  rw [List.mem_append, Machine.globalNames, Scopes.mem_names_iff]
  exact (h.globals name (Scopes.mem_names_iff.mp hname)).symm

theorem Grows.mono (h : m.Grows names m') (hsubset : names ⊆ more) : m.Grows more m' :=
  ⟨h.text, fun name hname => (h.globals name hname).imp id fun h => hsubset h⟩

theorem Grows.of_same (hscopes : m'.scopes = m.scopes) (hsink : m'.sink = m.sink) :
    m.Grows names m' :=
  ⟨⟨"", by rw [hsink, String.append_empty]⟩, fun _ hname => .inl (hscopes ▸ hname)⟩

theorem Grows.push (m : Machine) (outer : Option ScopeId) :
    m.Grows names { m with scopes := m.scopes.push outer } :=
  ⟨⟨"", String.append_empty.symm⟩, fun name hname => .inl (by rwa [Scopes.own?_push] at hname)⟩

/-- Only a new name in the outermost scope is a new global. -/
theorem Grows.define
    (h : s = globalScope → (m.scopes.own? globalScope name).isSome ∨ name ∈ names) :
    m.Grows names { m with scopes := m.scopes.define s name v } := by
  refine ⟨⟨"", String.append_empty.symm⟩, fun other hother => ?_⟩
  dsimp only at hother
  rw [Scopes.own?_define] at hother
  split at hother
  · rename_i hnew
    exact hnew.2.1 ▸ h hnew.1
  · exact .inl hother

theorem Grows.defineAll {params : List Token} {vs : List Value} (hs : s ≠ globalScope) :
    m.Grows names { m with scopes := m.scopes.defineAll s params vs } := by
  induction params generalizing m vs with
  | nil => exact .refl names m
  | cons param params ih =>
      cases vs with
      | nil => exact .refl names m
      | cons v vs => exact (Grows.define fun h => absurd h hs).trans ih

theorem Grows.enterCall (r : Routine) (vs : List Value) (hs : m.scopes.size ≠ globalScope) :
    m.Grows names { m with
      scopes := (m.scopes.push (some r.scope)).defineAll m.scopes.size r.declaration.params vs } :=
  have hpush := Grows.push m (some r.scope)
  hpush.trans (.defineAll hs)

theorem Grows.bind (r : Routine) (receiver : Value) (hs : m.scopes.size ≠ globalScope) :
    m.Grows names (m.bind r receiver) :=
  have hpush := Grows.push m (some r.scope)
  have hdefine := Grows.define fun h => absurd h hs
  have hgrows := hpush.trans hdefine
  ⟨hgrows.text, hgrows.globals⟩

theorem declares_congr (h : m'.current = m.current) (names : List Token) :
    m'.declares names = m.declares names := by
  rw [declares, declares, h]

theorem declares_subset {names more : List Token} (h : names ⊆ more) :
    m.declares names ⊆ m.declares more := by
  unfold declares
  split
  · exact List.map_subset _ h
  · exact List.Subset.refl _

theorem declares_of_ne (h : m.current ≠ globalScope) (names : List Token) :
    m.declares names = [] :=
  if_neg h

end Machine

namespace Ending.Grows

theorem after {ending : Ending α} (hm : m.Grows names m') (h : ending.Grows names m') :
    ending.Grows names m := by
  cases ending with
  | done v m'' | failed fault m'' => exact hm.trans h
  | unfinished => trivial

theorem mono {ending : Ending α} (h : ending.Grows names m) (hsubset : names ⊆ more) :
    ending.Grows more m := by
  cases ending with
  | done v m' | failed fault m' => exact Machine.Grows.mono h hsubset
  | unfinished => trivial

theorem weaken {ending : Ending α} (h : ending.Grows [] m) : ending.Grows names m :=
  h.mono (List.nil_subset _)

theorem bind {r : Run α} {k : α → Run β} (h : (r m).Grows names m)
    (hk : ∀ a m', r m = .done a m' → (k a m').Grows names m') :
    ((r >>= k) m).Grows names m := by
  rw [Run.bind_apply]
  cases hr : r m with
  | done a m' =>
      rw [hr] at h
      exact after h (hk a m' hr)
  | failed fault m' =>
      rw [hr] at h
      exact h
  | unfinished => trivial

theorem done (v : α) : (Ending.done v m).Grows names m :=
  Machine.Grows.refl names m

theorem inScope {scope : ScopeId} {body : Run α}
    (h : (body { m with current := scope }).Grows names { m with current := scope }) :
    (Run.inScope scope body m).Grows names m := by
  unfold Run.inScope
  dsimp only
  cases hbody : body { m with current := scope } with
  | done v m' | failed fault m' =>
      rw [hbody] at h
      exact ⟨h.text, h.globals⟩
  | unfinished => trivial

theorem counted {body : Run α} (h : (body m.countCall).Grows names m.countCall) :
    (Run.counted body m).Grows names m := by
  simp only [Machine.countCall] at h
  unfold Run.counted
  cases hbody : body { m with depth := m.depth + 1 } with
  | done v m' | failed fault m' =>
      rw [hbody] at h
      exact ⟨h.text, h.globals⟩
  | unfinished => trivial

theorem ofExcept {result : Except RuntimeFault α} (place : Token) :
    (Run.ofExcept place result m).Grows names m := by
  cases result <;> exact Machine.Grows.refl names m

theorem write (piece : String) : (Run.write piece m).Grows names m := by
  unfold Run.write
  dsimp only
  split <;> exact ⟨⟨_, rfl⟩, fun _ h => .inl h⟩

theorem writeAll (pieces : List String) : (Run.writeAll pieces m).Grows names m := by
  induction pieces generalizing m with
  | nil => exact done ()
  | cons piece pieces ih => exact bind (write piece) fun _ _ _ => ih

theorem print (v : Value) : (Run.print v m).Grows names m := writeAll _

theorem result {r : Routine} {flow : Flow} : (Run.result r flow m).Grows names m := by
  unfold Run.result
  split
  · exact done _
  · cases flow <;> exact done _

theorem defineHere (name : Token) (hcurrent : m'.current = m.current) :
    (Run.defineHere name v m').Grows (m.declares [name]) m' :=
  Machine.Grows.define fun h => .inr (by simp [Machine.declares, ← hcurrent, h])

end Ending.Grows

end

/-- However the task ends, what it adds is what it declares. -/
def Moment.Grows : Moment → Prop
  | ⟨n, .evaluate e, m⟩ => (Lox.evaluate n e m).Grows [] m
  | ⟨n, .evaluateAll es, m⟩ => (Lox.evaluateAll n es m).Grows [] m
  | ⟨n, .callValue callee paren vs, m⟩ => (Lox.callValue n callee paren vs m).Grows [] m
  | ⟨n, .invoke callee vs, m⟩ => (Lox.invoke n callee vs m).Grows [] m
  | ⟨n, .runRoutine r vs, m⟩ => (Lox.runRoutine n r vs m).Grows [] m
  | ⟨n, .execute s, m⟩ => (Lox.execute n s m).Grows (m.declares s.declared) m
  | ⟨n, .executeAll ss, m⟩ =>
      (Lox.executeAll n ss m).Grows (m.declares (ss.flatMap Stmt.declared)) m
  | ⟨_, .lookUp node name, m⟩ => (Run.lookUp node name m).Grows [] m
  | ⟨_, .assign node name v, m⟩ => (Run.assign node name v m).Grows [] m
  | ⟨_, .bindMethod r receiver, m⟩ => (Run.bindMethod r receiver m).Grows [] m

section

variable {n : Nat} {m : Machine}

theorem lookUp_grows (node : NodeId) (name : Token) : (Run.lookUp node name m).Grows [] m := by
  unfold Run.lookUp
  dsimp only
  split <;> exact Machine.Grows.refl [] m

theorem getProperty_grows {e : Expr NodeId} {name : Token} {v : Value} {m' : Machine}
    (hv : evaluate n e m = .done v m')
    (hparts : ∀ y, Part ⟨n + 1, .evaluate (.get e name), m⟩ y → y.Grows) :
    (Run.getProperty v name m').Grows [] m' := by
  cases v with
  | instance_ inst c =>
      simp only [Run.getProperty, Run.bind_apply, Run.field?]
      cases hfield : (m'.instances[inst]?).bind fun fields => fields.find? name.lexeme with
      | some value => exact .done value
      | none =>
          dsimp only
          cases hmethod : c.methods.find? name.lexeme with
          | none => exact Machine.Grows.refl [] m'
          | some r =>
              exact Ending.Grows.bind (hparts _ (.method hv hfield hmethod)) fun _ _ _ => .done _
  | _ => exact Machine.Grows.refl [] m'

theorem evaluate_grows {e : Expr NodeId}
    (hparts : ∀ y, Part ⟨n + 1, .evaluate e, m⟩ y → y.Grows) :
    (evaluate (n + 1) e m).Grows [] m := by
  cases e with
  | literal value => exact .done _
  | grouping inner => exact hparts _ .grouping
  | unary operator operand => exact .bind (hparts _ .operand) fun _ _ _ => .ofExcept _
  | binary left operator right =>
      refine .bind (hparts _ .left) fun _ _ ha => ?_
      exact .bind (hparts _ (.right ha)) fun _ _ _ => .ofExcept _
  | logical left operator right =>
      refine .bind (hparts _ .deciding) fun v m' hv => ?_
      split
      · exact .done _
      · rename_i hdecides
        exact hparts _ (.undecided hv (by simpa using hdecides))
  | var node name => exact hparts _ .var
  | assign node name value =>
      refine .bind (hparts _ .assigned) fun _ _ hv => ?_
      exact .bind (hparts _ (.assign hv)) fun _ _ _ => .done _
  | call callee paren arguments =>
      refine .bind (hparts _ .callee) fun _ _ hv => ?_
      exact .bind (hparts _ (.arguments hv)) fun _ _ hvs => hparts _ (.call hv hvs)
  | get object name =>
      exact .bind (hparts _ .object) fun _ _ hv => getProperty_grows hv hparts
  | set object name value =>
      refine .bind (hparts _ .holder) fun v m' hv => ?_
      cases v with
      | instance_ inst c =>
          refine .bind (hparts _ (.held hv)) fun _ m'' _ => ?_
          exact Machine.Grows.of_same rfl rfl
      | _ => exact Machine.Grows.refl [] m'
  | this node keyword => exact hparts _ .this

theorem invoke_grows {callee : Value} {vs : List Value}
    (hparts : ∀ y, Part ⟨n + 1, .invoke callee vs, m⟩ y → y.Grows) :
    (invoke (n + 1) callee vs m).Grows [] m := by
  cases callee with
  | function f => exact hparts _ .function
  | class_ c =>
      rw [invoke_class]
      cases hr : c.initializer? with
      | none => exact Machine.Grows.of_same rfl rfl
      | some r =>
          have hinstance : m.Grows [] m.addInstance := .of_same rfl rfl
          have hbind : m.addInstance.Grows [] (m.addInstance.bind r _) := hparts _ (.receiver hr)
          refine .after (hinstance.trans hbind) ?_
          exact .bind (hparts _ (.initializer hr)) fun _ _ _ => .done _
  | native f => exact Machine.Grows.of_same rfl rfl
  | _ => exact Machine.Grows.refl [] m

theorem evaluateAll_grows {es : List (Expr NodeId)}
    (hparts : ∀ y, Part ⟨n + 1, .evaluateAll es, m⟩ y → y.Grows) :
    (evaluateAll (n + 1) es m).Grows [] m := by
  cases es with
  | nil => exact .done _
  | cons e es =>
      refine .bind (hparts _ .firstOf) fun _ _ hv => ?_
      exact .bind (hparts _ (.othersOf hv)) fun _ _ _ => .done _

theorem callValue_grows {callee : Value} {paren : Token} {vs : List Value}
    (hparts : ∀ y, Part ⟨n + 1, .callValue callee paren vs, m⟩ y → y.Grows) :
    (callValue (n + 1) callee paren vs m).Grows [] m := by
  rw [callValue, Run.bind_apply]
  cases hcheck : Run.checkCall callee vs.length paren m with
  | done _ m' =>
      obtain ⟨_, rfl⟩ := Run.arity?_of_checkCall hcheck
      exact .counted (hparts _ (.invoke hcheck))
  | failed fault m' =>
      obtain rfl := Run.machine_of_checkCall hcheck
      exact Machine.Grows.refl [] m'
  | unfinished => trivial

end

namespace Setting

variable {W : Setting} {Γ : List OpenFrame} {n : Nat} {m m' : Machine} {x : Moment}

theorem Fits.size_ne (h : W.Fits m) : m.scopes.size ≠ globalScope :=
  Nat.ne_of_gt h.nonempty

theorem Ready.assign_grows {node : NodeId} {name : Token} {v : Value}
    (hx : W.Ready Γ ⟨n, .assign node name v, m⟩) : (Run.assign node name v m).Grows [] m := by
  obtain ⟨hfits, -, hchain, hsite, -⟩ := hx
  have hhops := hfits.hops _ hsite
  unfold Run.assign
  dsimp only
  split
  · rename_i scope htarget
    refine Machine.Grows.define fun hscope => .inl ?_
    subst hscope
    dsimp only at hhops
    rw [hhops] at htarget
    split at htarget
    · rename_i distance hdistance
      exact absurd htarget (hchain.ancestor?_ne hfits.outermost (Site.distance?_lt hdistance))
    · rw [Scopes.owner?_of_root hfits.outermost] at htarget
      by_contra hunbound
      rw [if_neg hunbound] at htarget
      cases htarget
  · exact Machine.Grows.refl [] m

theorem Ready.bindMethod_grows {r : Routine} {receiver : Value}
    (hx : W.Ready Γ ⟨n, .bindMethod r receiver, m⟩) :
    (Run.bindMethod r receiver m).Grows [] m := by
  rw [Run.bindMethod_apply]
  exact Machine.Grows.bind r receiver hx.fits.size_ne

theorem Ready.runRoutine_grows {r : Routine} {vs : List Value}
    (hx : W.Ready Γ ⟨n + 1, .runRoutine r vs, m⟩)
    (hparts : ∀ y, Part ⟨n + 1, .runRoutine r vs, m⟩ y → y.Grows) :
    (runRoutine (n + 1) r vs m).Grows [] m := by
  have hbody : (executeAll n r.declaration.body (m.enterCall r vs)).Grows
      ((m.enterCall r vs).declares _) (m.enterCall r vs) := hparts _ .body
  rw [Machine.declares_of_ne hx.fits.size_ne] at hbody
  rw [runRoutine_succ]
  refine .after (.enterCall r vs hx.fits.size_ne) ?_
  exact .bind (.inScope hbody) fun _ _ _ => .result

theorem Ready.current_of_evaluate {e : Expr NodeId} {v : Value} (hx : W.Ready Γ x)
    (hpart : Part x ⟨n, .evaluate e, m⟩) (h : Lox.evaluate n e m = .done v m') :
    m'.current = m.current := by
  obtain ⟨_, hready⟩ := hx.within (.single hpart)
  exact (hready.settles.evaluate.of_done h).1.current

theorem Ready.current_of_execute {s : Stmt NodeId} {flow : Flow} (hx : W.Ready Γ x)
    (hpart : Part x ⟨n, .execute s, m⟩) (h : Lox.execute n s m = .done flow m') :
    m'.current = m.current := by
  obtain ⟨_, hready⟩ := hx.within (.single hpart)
  exact (hready.settles.execute.of_done h).1.current

theorem Ready.execute_grows {s : Stmt NodeId} (hx : W.Ready Γ ⟨n + 1, .execute s, m⟩)
    (hparts : ∀ y, Part ⟨n + 1, .execute s, m⟩ y → y.Grows) :
    (execute (n + 1) s m).Grows (m.declares s.declared) m := by
  cases s with
  | expression e => exact .bind (.weaken (hparts _ .expression)) fun _ _ _ => .done _
  | print e =>
      refine .bind (.weaken (hparts _ .print)) fun v _ _ => ?_
      exact .bind (.print v) fun _ _ _ => .done _
  | var name initial =>
      cases initial with
      | none => exact .bind (.defineHere name rfl) fun _ _ _ => .done _
      | some e =>
          refine .bind (.weaken (hparts _ .initial)) fun v m' hv => ?_
          have hcurrent := hx.current_of_evaluate .initial hv
          exact .bind (.defineHere name hcurrent) fun _ _ _ => .done _
  | block body =>
      have hbody : (executeAll n body m.enterBlock).Grows (m.enterBlock.declares _)
          m.enterBlock := hparts _ .block
      rw [Machine.declares_of_ne hx.fits.size_ne] at hbody
      rw [execute_block]
      exact .after (.push m _) (.inScope hbody.weaken)
  | branch condition consequent alternative =>
      refine .bind (.weaken (hparts _ .condition)) fun v m' hv => ?_
      have hcurrent := hx.current_of_evaluate .condition hv
      split
      · rename_i htruthy
        refine Ending.Grows.mono (hparts _ (.consequent hv htruthy)) ?_
        rw [Machine.declares_congr hcurrent]
        refine Machine.declares_subset ?_
        cases alternative <;> simp [Stmt.declared]
      · rename_i htruthy
        cases alternative with
        | none => exact .done _
        | some alternative =>
            refine Ending.Grows.mono (hparts _ (.alternative hv htruthy)) ?_
            rw [Machine.declares_congr hcurrent]
            exact Machine.declares_subset (by simp [Stmt.declared])
  | loop condition body =>
      refine .bind (.weaken (hparts _ .loopCondition)) fun v m' hv => ?_
      have hcurrent := hx.current_of_evaluate .loopCondition hv
      split
      · rename_i htruthy
        rw [← Machine.declares_congr hcurrent]
        refine .bind (hparts _ (.loopBody hv htruthy)) fun flow m'' hflow => ?_
        have hcurrent' := hx.current_of_execute (.loopBody hv htruthy) hflow
        cases flow with
        | normal =>
            rw [← Machine.declares_congr hcurrent']
            exact hparts _ (.loopAgain hv htruthy hflow)
        | returned v => exact .done _
      · exact .done _
  | function d =>
      have hmade : (Run.makeFunction d m).Grows (m.declares [d.name]) m :=
        Machine.Grows.of_same rfl rfl
      refine .bind hmade fun v m' hv => ?_
      cases hv
      exact .bind (.defineHere d.name rfl) fun _ _ _ => .done _
  | ret keyword value =>
      cases value with
      | none => exact .done _
      | some e => exact .bind (.weaken (hparts _ .answer)) fun _ _ _ => .done _
  | class_ name methods =>
      have hmade : (Run.makeClass name methods m).Grows (m.declares [name]) m :=
        Machine.Grows.of_same rfl rfl
      refine .bind hmade fun v m' hv => ?_
      cases hv
      exact .bind (.defineHere name rfl) fun _ _ _ => .done _

theorem Ready.executeAll_grows {ss : List (Stmt NodeId)}
    (hx : W.Ready Γ ⟨n + 1, .executeAll ss, m⟩)
    (hparts : ∀ y, Part ⟨n + 1, .executeAll ss, m⟩ y → y.Grows) :
    (executeAll (n + 1) ss m).Grows (m.declares (ss.flatMap Stmt.declared)) m := by
  cases ss with
  | nil => exact .done _
  | cons s ss =>
      have hfirst : (execute n s m).Grows (m.declares s.declared) m := hparts _ .first
      refine .bind (hfirst.mono (Machine.declares_subset (by simp))) fun flow m' hflow => ?_
      have hcurrent := hx.current_of_execute .first hflow
      cases flow with
      | normal =>
          refine Ending.Grows.mono (hparts _ (.others hflow)) ?_
          rw [Machine.declares_congr hcurrent]
          exact Machine.declares_subset (by simp)
      | returned v => exact .done _

theorem grows_of_parts (hx : W.Ready Γ x) (hparts : ∀ y, Part x y → y.Grows) : x.Grows := by
  obtain ⟨fuel, task, m⟩ := x
  cases fuel with
  | zero =>
      cases task with
      | lookUp node name => exact lookUp_grows node name
      | assign node name v => exact hx.assign_grows
      | bindMethod r receiver => exact hx.bindMethod_grows
      | _ => trivial
  | succ n =>
      cases task with
      | evaluate e => exact evaluate_grows hparts
      | evaluateAll es => exact evaluateAll_grows hparts
      | callValue callee paren vs => exact callValue_grows hparts
      | invoke callee vs => exact invoke_grows hparts
      | runRoutine r vs => exact hx.runRoutine_grows hparts
      | execute s => exact hx.execute_grows hparts
      | executeAll ss => exact hx.executeAll_grows hparts
      | lookUp node name => exact lookUp_grows node name
      | assign node name v => exact hx.assign_grows
      | bindMethod r receiver => exact hx.bindMethod_grows

/-- Every moment that is ready adds what it declares, and nothing else. -/
theorem Ready.grows (hx : W.Ready Γ x) : x.Grows := by
  induction hn : x.fuel using Nat.strongRecOn generalizing x Γ with
  | ind n ih =>
      refine grows_of_parts hx fun y hpart => ?_
      obtain ⟨Γ', hy⟩ := hx.within (.single hpart)
      exact ih y.fuel (hn ▸ hpart.fuel_lt) hy rfl

end Setting

/-- A run that ends adds what its program declares, and nothing else. -/
theorem Session.Sound.run_grows {history : List (Session × Step)} {s s' : Session} {source : String}
    {program : List (Stmt NodeId)} {fuel : Nat} (hs : Sound history s) 
    (hunit : s.unit? source = some (program, s'))
    (hends : (s.run fuel source).1 ≠ .unfinished) :
    s.machine.Grows ((program.flatMap Stmt.declared).map Token.lexeme)
      (s.run fuel source).2.machine := by
  have hgrows : (executeAll fuel program s'.machine).Grows _ s'.machine :=
    (hs.start_run hunit fuel).2.grows
  obtain ⟨-, hmachine, -⟩ := unit?_learns hs hunit
  rw [run_of_unit? hunit] at hends ⊢
  obtain ⟨m, hafter, hrun⟩ := conclude_interpret hends
  have hgrows : s'.machine.Grows (s'.machine.declares (program.flatMap Stmt.declared)) m := by
    rcases hrun with ⟨flow, hrun⟩ | ⟨fault, hrun⟩ <;> rw [hrun] at hgrows <;> exact hgrows
  rw [Machine.declares, if_pos (hs.start_run hunit fuel).1.current, hmachine] at hgrows
  rw [hafter]
  exact ⟨hgrows.text, hgrows.globals⟩

end Lox
