import Lox.Proofs.Likeness.Machines
import Lox.Proofs.Running.Tasks

namespace Lox

/-- Whenever a local name is looked up in the course of the run, it is bound. -/
def Moment.Sure (x : Moment) : Prop :=
  ∀ y, Within x y → ∀ node name, y.task = .lookUp node name →
    ∀ distance, y.machine.hops[node]? = some distance →
      (y.machine.scopes.getAt? y.machine.current distance name.lexeme).isSome

theorem Moment.Sure.part {x y : Moment} (h : x.Sure) (hpart : Part x y) : y.Sure :=
  fun z hz => h z (.head hpart hz)

namespace Correspondence

inductive FaultAlike (C : Correspondence) : Diagnostic → Diagnostic → Prop
  | runtime {place place' : Token} (h : C.token place place') (fault : RuntimeFault) :
      FaultAlike C (.runtime place fault) (.runtime place' fault)
  | output (fault : SinkFault) : FaultAlike C (.output fault) (.output fault)

/-- How two runs end that started on corresponding machines, the first of them in the scope `s`. -/
inductive EndsAlike {α : Type} (C : Correspondence) (ω : Plan) (s : ScopeId)
    (P : Plan → α → α → Prop) : Ending α → Ending α → Prop
  | ended {ω' : Plan} {m m' : Machine} {a a' : α} (hω : ω <+: ω') (h : C.Matches ω' m m')
      (hcurrent : m.current = s) (ha : P ω' a a') : EndsAlike C ω s P (.done a m) (.done a' m')
  | failed {ω' : Plan} {m m' : Machine} {fault fault' : Diagnostic} (hω : ω <+: ω')
      (h : C.Matches ω' m m') (hfault : C.FaultAlike fault fault') :
      EndsAlike C ω s P (.failed fault m) (.failed fault' m')
  | unfinished : EndsAlike C ω s P .unfinished .unfinished

variable {C : Correspondence} {ω ω' : Plan} {m m' : Machine} {v v' : Value} {s : ScopeId}
  {Δ : List Bool} {α β : Type} {P : Plan → α → α → Prop} {Q : Plan → β → β → Prop}

theorem EndsAlike.done {a a' : α} (h : C.Matches ω m m') (hcurrent : m.current = s)
    (ha : P ω a a') : C.EndsAlike ω s P (.done a m) (.done a' m') :=
  .ended (List.prefix_refl ω) h hcurrent ha

theorem EndsAlike.failAt {place place' : Token} (h : C.Matches ω m m')
    (hplace : C.token place place') (fault : RuntimeFault) :
    C.EndsAlike ω s P (Run.failAt place fault m) (Run.failAt place' fault m') :=
  .failed (List.prefix_refl ω) h (.runtime hplace fault)

theorem EndsAlike.after {e e' : Ending α} (h : C.EndsAlike ω' s P e e') (hω : ω <+: ω') :
    C.EndsAlike ω s P e e' := by
  cases h with
  | ended hω' h hcurrent ha => exact .ended (hω.trans hω') h hcurrent ha
  | failed hω' h hfault => exact .failed (hω.trans hω') h hfault
  | unfinished => exact .unfinished

theorem EndsAlike.bind {r r' : Run α} {k k' : α → Run β} (h : C.EndsAlike ω s P (r m) (r' m'))
    (hk : ∀ ω' a a' m₁ m₁', ω <+: ω' → C.Matches ω' m₁ m₁' → m₁.current = s →
      r m = .done a m₁ → P ω' a a' → C.EndsAlike ω' s Q (k a m₁) (k' a' m₁')) :
    C.EndsAlike ω s Q ((r >>= k) m) ((r' >>= k') m') := by
  rw [Run.bind_apply, Run.bind_apply]
  generalize hr : r m = e at h
  generalize r' m' = e' at h
  cases h with
  | ended hω h hcurrent ha => exact (hk _ _ _ _ _ hω h hcurrent hr ha).after hω
  | failed hω h hfault => exact .failed hω h hfault
  | unfinished => exact .unfinished

theorem ValueAlike.ofLiteral (value : Literal) :
    C.ValueAlike ω (.ofLiteral value) (.ofLiteral value) := by
  cases value with
  | nil => exact .nil
  | boolean b => exact .boolean b
  | number n => exact .number n
  | string s => exact .string s

/-- The results of an operator on corresponding values. -/
def ResultAlike (C : Correspondence) (ω : Plan) (result result' : Except RuntimeFault Value) :
    Prop :=
  (∃ v v', result = .ok v ∧ result' = .ok v' ∧ C.ValueAlike ω v v') ∨
    ∃ fault, result = .error fault ∧ result' = .error fault

theorem EndsAlike.ofExcept {place place' : Token} {result result' : Except RuntimeFault Value}
    (h : C.Matches ω m m') (hcurrent : m.current = s) (hplace : C.token place place')
    (hresult : C.ResultAlike ω result result') :
    C.EndsAlike ω s C.ValueAlike (Run.ofExcept place result m)
      (Run.ofExcept place' result' m') := by
  rcases hresult with ⟨v, v', rfl, rfl, hv⟩ | ⟨fault, rfl, rfl⟩
  · exact .done h hcurrent hv
  · exact .failAt h hplace fault

theorem ResultAlike.ok (h : C.ValueAlike ω v v') : C.ResultAlike ω (.ok v) (.ok v') :=
  .inl ⟨v, v', rfl, rfl, h⟩

theorem ResultAlike.error (fault : RuntimeFault) :
    C.ResultAlike ω (.error fault) (.error fault) :=
  .inr ⟨fault, rfl, rfl⟩

theorem unary_alike (operator : Kind) (h : C.ValueAlike ω v v') :
    C.ResultAlike ω (Operator.unary operator v) (Operator.unary operator v') := by
  unfold Operator.unary
  split
  · rw [h.truthy]
    exact .ok (.boolean _)
  · cases h <;> first | exact .ok (.number _) | exact .error _
  · exact .error _

theorem arithmetic_alike (operator : Kind) (a b : Float) :
    C.ResultAlike ω (Operator.arithmetic operator a b) (Operator.arithmetic operator a b) := by
  unfold Operator.arithmetic
  split
  case h_3 =>
    split
    · exact .error _
    · exact .ok (.number _)
  all_goals first | exact .ok (.number _) | exact .ok (.boolean _) | exact .error _

theorem binary_alike (operator : Kind) {u u' : Value} (h : C.ValueAlike ω v v')
    (hu : C.ValueAlike ω u u') :
    C.ResultAlike ω (Operator.binary operator v u) (Operator.binary operator v' u') := by
  unfold Operator.binary
  split
  · rw [h.equals hu]
    exact .ok (.boolean _)
  · rw [h.equals hu]
    exact .ok (.boolean _)
  · unfold Operator.plus
    cases h <;> cases hu <;>
      first | exact .ok (.number _) | exact .ok (.string _) | exact .error _
  · cases h <;> cases hu <;> first | exact arithmetic_alike _ _ _ | exact .error _

theorem Matches.global (h : C.Matches ω m m') (name : String) :
    Option.Rel (C.ValueAlike ω) (m.scopes.own? globalScope name)
      (m'.scopes.own? globalScope name) :=
  h.bound globalScope _ h.root name name (spelled_false_iff.mpr rfl)

theorem Matches.root_enclosing (h : C.Matches ω m m') :
    m.scopes.enclosing? globalScope = none ∧ m'.scopes.enclosing? globalScope = none :=
  h.enclosing globalScope _ h.root

/-- A name is looked up with the same result, as long as local names are bound. -/
theorem lookUp_alike (h : C.Matches ω m m') (hcurrent : m.current = s) (hchain : ω.Leads Δ s)
    {node : NodeId}
    {name name' : Token} (hname : C.likeness.reference Δ node name name')
    (hbound : ∀ distance, m.hops[node]? = some distance →
      (m.scopes.getAt? m.current distance name.lexeme).isSome) :
    C.EndsAlike ω s C.ValueAlike (Run.lookUp node name m) (Run.lookUp node name' m') := by
  subst hcurrent
  obtain ⟨hknown, hglobal, hlocal⟩ := hname
  obtain ⟨hhops, hhops'⟩ := h.hops node hknown
  rw [hhops] at hbound
  unfold Run.lookUp
  rw [hhops, hhops', h.current]
  cases hhop : C.hops node with
  | none =>
      obtain ⟨hroot, hroot'⟩ := h.root_enclosing
      have htoken := hglobal hhop
      have hfound := h.global name.lexeme
      dsimp only
      rw [Scopes.get?_of_root hroot, Scopes.get?_of_root hroot', C.lexeme_eq htoken]
      generalize m.scopes.own? globalScope name.lexeme = found at hfound
      generalize m'.scopes.own? globalScope name.lexeme = found' at hfound
      cases hfound with
      | some hv => exact EndsAlike.done h rfl hv
      | none =>
          rw [Diagnostic.undefined, Diagnostic.undefined, C.lexeme_eq htoken]
          exact EndsAlike.failAt h htoken _
  | some distance =>
      obtain ⟨mark, hmark, hspelled⟩ := hlocal distance hhop
      obtain ⟨scope, outer, hseat, hancestor, hancestor'⟩ := h.ancestor? hchain hmark
      have hfound := h.bound scope _ hseat _ _ hspelled
      have hsome := hbound distance hhop
      simp only [Scopes.getAt?, hancestor, hancestor', Option.bind_some] at hsome ⊢
      generalize m.scopes.own? scope name.lexeme = found at hfound hsome
      generalize m'.scopes.own? scope name'.lexeme = found' at hfound
      cases hfound with
      | some hv => exact EndsAlike.done h rfl hv
      | none => cases hsome

theorem assign_alike (h : C.Matches ω m m') (hcurrent : m.current = s) (hchain : ω.Leads Δ s)
    {node : NodeId}
    {name name' : Token} (hname : C.likeness.reference Δ node name name')
    (hv : C.ValueAlike ω v v') :
    C.EndsAlike ω s (fun _ _ _ => True) (Run.assign node name v m)
      (Run.assign node name' v' m') := by
  subst hcurrent
  obtain ⟨hknown, hglobal, hlocal⟩ := hname
  obtain ⟨hhops, hhops'⟩ := h.hops node hknown
  unfold Run.assign
  rw [hhops, hhops']
  cases hhop : C.hops node with
  | none =>
      obtain ⟨hroot, hroot'⟩ := h.root_enclosing
      have htoken := hglobal hhop
      have hfound := h.global name.lexeme
      dsimp only
      rw [Scopes.owner?_of_root hroot, Scopes.owner?_of_root hroot', C.lexeme_eq htoken]
      generalize hown : m.scopes.own? globalScope name.lexeme = found at hfound
      generalize hown' : m'.scopes.own? globalScope name.lexeme = found' at hfound
      cases hfound with
      | some _ => exact EndsAlike.done (h.define h.root (spelled_false_iff.mpr rfl) hv) rfl trivial
      | none =>
          rw [Diagnostic.undefined, Diagnostic.undefined, C.lexeme_eq htoken]
          exact EndsAlike.failAt h htoken _
  | some distance =>
      obtain ⟨mark, hmark, hspelled⟩ := hlocal distance hhop
      obtain ⟨scope, outer, hseat, hancestor, hancestor'⟩ := h.ancestor? hchain hmark
      rw [← h.current] at hancestor'
      dsimp only
      rw [hancestor, hancestor']
      exact EndsAlike.done (h.define hseat hspelled hv) rfl trivial

theorem write_alike (h : C.Matches ω m m') (hcurrent : m.current = s) (piece : String) :
    C.EndsAlike ω s (fun _ _ _ => True) (Run.write piece m) (Run.write piece m') := by
  have hwritten : ∀ sink, C.Matches ω { m with sink } { m' with sink } := fun sink =>
    ⟨h.size, h.size', h.root, h.enclosing, h.bound, h.globals, h.instances, h.fields, h.hops,
      h.fresh, h.current, h.depth, rfl, h.clock, h.readings⟩
  unfold Run.write
  rw [h.sink]
  dsimp only
  split
  · exact EndsAlike.done (hwritten _) hcurrent trivial
  · exact .failed (List.prefix_refl ω) (hwritten _) (.output .full)

theorem writeAll_alike (h : C.Matches ω m m') (hcurrent : m.current = s) (pieces : List String) :
    C.EndsAlike ω s (fun _ _ _ => True) (Run.writeAll pieces m) (Run.writeAll pieces m') := by
  induction pieces generalizing ω m m' with
  | nil => exact EndsAlike.done h hcurrent trivial
  | cons piece pieces ih =>
      refine (write_alike h hcurrent piece).bind ?_
      intro ω' _ _ m₁ m₁' _ hmatches hcurrent _ _
      exact ih hmatches hcurrent

theorem print_alike (h : C.Matches ω m m') (hcurrent : m.current = s) (hv : C.ValueAlike ω v v') :
    C.EndsAlike ω s (fun _ _ _ => True) (Run.print v m) (Run.print v' m') := by
  unfold Run.print
  rw [hv.pieces]
  exact writeAll_alike h hcurrent _

theorem readClock_alike (h : C.Matches ω m m') (hcurrent : m.current = s) :
    C.EndsAlike ω s (fun _ time time' => time' = time) (Run.readClock m) (Run.readClock m') := by
  unfold Run.readClock
  rw [h.clock, h.readings]
  exact EndsAlike.done ⟨h.size, h.size', h.root, h.enclosing, h.bound, h.globals, h.instances,
    h.fields, h.hops, h.fresh, h.current, h.depth, h.sink, rfl, rfl⟩ hcurrent rfl

theorem Matches.enter (h : C.Matches ω m m') (s : ScopeId) :
    C.Matches ω { m with current := s } { m' with current := s } :=
  ⟨h.size, h.size', h.root, h.enclosing, h.bound, h.globals, h.instances, h.fields, h.hops,
    h.fresh, rfl, h.depth, h.sink, h.clock, h.readings⟩

theorem Matches.withDepth (h : C.Matches ω m m') {depth depth' : Nat} (hdepth : depth' = depth) :
    C.Matches ω { m with depth := depth } { m' with depth := depth' } :=
  ⟨h.size, h.size', h.root, h.enclosing, h.bound, h.globals, h.instances, h.fields, h.hops,
    h.fresh, h.current, hdepth, h.sink, h.clock, h.readings⟩

theorem Matches.atRest (h : C.Matches ω m m') : C.Matches ω m.atRest m'.atRest :=
  (h.enter globalScope).withDepth rfl

theorem Matches.withFresh (h : C.Matches ω m m') :
    C.Matches ω { m with fresh := m.fresh + 1 } { m' with fresh := m'.fresh + 1 } :=
  ⟨h.size, h.size', h.root, h.enclosing, h.bound, h.globals, h.instances, h.fields, h.hops,
    congrArg (· + 1) h.fresh, h.current, h.depth, h.sink, h.clock, h.readings⟩

theorem Matches.addInstance (h : C.Matches ω m m') :
    C.Matches ω m.addInstance m'.addInstance := by
  refine ⟨h.size, h.size', h.root, h.enclosing, h.bound, h.globals, ?_, ?_, h.hops, h.fresh,
    h.current, h.depth, h.sink, h.clock, h.readings⟩
  · simp [Machine.addInstance, h.instances]
  · intro inst name
    simp only [Machine.addInstance, Array.getElem?_push, h.instances]
    split
    · exact .none
    · exact h.fields inst name

theorem Matches.setField (h : C.Matches ω m m') (inst : Identity) (name : String)
    (hv : C.ValueAlike ω v v') :
    C.Matches ω { m with instances := m.instances.modify inst (·.insert name v) }
      { m' with instances := m'.instances.modify inst (·.insert name v') } := by
  refine ⟨h.size, h.size', h.root, h.enclosing, h.bound, h.globals, ?_, ?_, h.hops, h.fresh,
    h.current, h.depth, h.sink, h.clock, h.readings⟩
  · simp [h.instances]
  · intro inst' name'
    simp only [Array.getElem?_modify]
    have hfields := h.fields inst' name'
    by_cases hinst : inst = inst'
    · subst hinst
      rw [if_pos rfl, if_pos rfl]
      by_cases hlt : inst < m.instances.size
      · have hlt' : inst < m'.instances.size := h.instances ▸ hlt
        rw [Array.getElem?_eq_getElem hlt, Array.getElem?_eq_getElem hlt'] at hfields ⊢
        simp only [Option.map_some, Option.bind_some, Bindings.find?_insert] at hfields ⊢
        split
        · exact .some hv
        · exact hfields
      · have hlt' : ¬inst < m'.instances.size := h.instances ▸ hlt
        rw [Array.getElem?_eq_none (Nat.not_lt.mp hlt), Array.getElem?_eq_none (Nat.not_lt.mp hlt')]
        exact .none
    · rw [if_neg hinst, if_neg hinst]
      exact hfields

theorem EndsAlike.inScope {body body' : Run α} {ω₀ : Plan} (h : m'.current = m.current)
    (hbody : C.EndsAlike ω₀ s P (body { m with current := s }) (body' { m' with current := s })) :
    C.EndsAlike ω₀ m.current P (Run.inScope s body m) (Run.inScope s body' m') := by
  unfold Run.inScope
  dsimp only
  generalize body { m with current := s } = e at hbody
  generalize body' { m' with current := s } = e' at hbody
  rw [h]
  cases hbody with
  | ended hω hmatches _ ha => exact .ended hω (hmatches.enter _) rfl ha
  | failed hω hmatches hfault => exact .failed hω (hmatches.enter _) hfault
  | unfinished => exact .unfinished

theorem EndsAlike.counted {body body' : Run α}
    (hbody : C.EndsAlike ω s P (body m.countCall) (body' m'.countCall)) :
    C.EndsAlike ω s P (Run.counted body m) (Run.counted body' m') := by
  simp only [Machine.countCall] at hbody
  unfold Run.counted
  generalize body { m with depth := m.depth + 1 } = e at hbody
  generalize body' { m' with depth := m'.depth + 1 } = e' at hbody
  cases hbody with
  | ended hω h hcurrent ha => exact .ended hω (h.withDepth (congrArg (· - 1) h.depth)) hcurrent ha
  | failed hω h hfault => exact .failed hω (h.withDepth (congrArg (· - 1) h.depth)) hfault
  | unfinished => exact .unfinished

end Correspondence

end Lox
