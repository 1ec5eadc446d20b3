import Lox.Proofs.Likeness.Correspondence
import Lox.Proofs.Running.Scopes
import Lox.Evaluation

/-!
Machines that correspond.

Two machines that run corresponding programs have the same scopes, each for a frame that is marked
or not. What one of them binds to a name, the other one binds to the corresponding name, and all
else that they hold is the same but for the text of their functions.
-/

namespace Lox

/-- What is known of a scope: whether its frame is marked, and which scope is around it. -/
structure Seat where
  mark : Bool
  outer : Option ScopeId

/-- All that is known of the scopes so far. It only ever gets longer. -/
abbrev Plan := List Seat

/-- The scopes from `s` outwards are those of frames with these marks. -/
def Plan.Leads (ω : Plan) : List Bool → ScopeId → Prop
  | [], s => s = globalScope
  | mark :: Δ, s => ∃ outer, ω[s]? = some ⟨mark, some outer⟩ ∧ Plan.Leads ω Δ outer

namespace Plan

variable {ω ω' : Plan} {s : ScopeId} {Δ : List Bool}

theorem getElem?_mono {seat : Seat} (h : ω <+: ω') (hs : ω[s]? = some seat) : ω'[s]? = some seat :=
  List.prefix_iff_getElem?.mp h s (List.getElem?_eq_some_iff.mp hs).1 ▸
    (List.getElem?_eq_getElem (List.getElem?_eq_some_iff.mp hs).1).symm.trans hs

theorem Leads.mono (h : ω.Leads Δ s) (hω : ω <+: ω') : ω'.Leads Δ s := by
  induction Δ generalizing s with
  | nil => exact h
  | cons mark Δ ih =>
      obtain ⟨outer, hs, houter⟩ := h
      exact ⟨outer, getElem?_mono hω hs, ih houter⟩

theorem Leads.exists_seat (h : ω.Leads Δ s) (hroot : ω[globalScope]? = some ⟨false, none⟩) :
    ∃ outer, ω[s]? = some ⟨Δ.headD false, outer⟩ := by
  cases Δ with
  | nil =>
      rw [show s = globalScope from h]
      exact ⟨none, hroot⟩
  | cons mark Δ =>
      obtain ⟨outer, hs, -⟩ := h
      exact ⟨some outer, hs⟩

end Plan

theorem optionRel_mono {α β : Type} {R R' : α → β → Prop} {a : Option α} {b : Option β}
    (h : Option.Rel R a b) (hR : ∀ a b, R a b → R' a b) : Option.Rel R' a b := by
  cases h with
  | none => exact .none
  | some h => exact .some (hR _ _ h)

namespace Correspondence

/-- Functions with corresponding texts in the same scope. The frames of a method are known but for
that of its receiver. -/
structure RoutineAlike (C : Correspondence) (ω : Plan) (around : List Bool → List Bool)
    (r r' : Routine) : Prop where
  scope : r'.scope = r.scope
  initializes : r'.initializes = r.initializes
  declaration : ∃ Δ, ω.Leads Δ r.scope ∧
    FunctionDecl.Alike C.likeness (around Δ) r.declaration r'.declaration

structure ClassAlike (C : Correspondence) (ω : Plan) (c c' : Class) : Prop where
  identity : c'.identity = c.identity
  name : c'.name = c.name
  methods : ∀ name, Option.Rel (C.RoutineAlike ω (false :: ·)) (c.methods.find? name)
    (c'.methods.find? name)

inductive ValueAlike (C : Correspondence) (ω : Plan) : Value → Value → Prop
  | nil : ValueAlike C ω .nil .nil
  | boolean (b : Bool) : ValueAlike C ω (.boolean b) (.boolean b)
  | number (n : Float) : ValueAlike C ω (.number n) (.number n)
  | string (s : String) : ValueAlike C ω (.string s) (.string s)
  | native (f : Native) : ValueAlike C ω (.native f) (.native f)
  | function {f f' : Closure} (hidentity : f'.identity = f.identity)
      (h : C.RoutineAlike ω id f.routine f'.routine) : ValueAlike C ω (.function f) (.function f')
  | class_ {c c' : Class} (h : C.ClassAlike ω c c') : ValueAlike C ω (.class_ c) (.class_ c')
  | instance_ (inst : Identity) {c c' : Class} (h : C.ClassAlike ω c c') :
      ValueAlike C ω (.instance_ inst c) (.instance_ inst c')

/-- One machine corresponds to another. -/
structure Matches (C : Correspondence) (ω : Plan) (m m' : Machine) : Prop where
  size : m.scopes.size = ω.length
  size' : m'.scopes.size = ω.length
  root : ω[globalScope]? = some ⟨false, none⟩
  enclosing : ∀ s seat, ω[s]? = some seat →
    m.scopes.enclosing? s = seat.outer ∧ m'.scopes.enclosing? s = seat.outer
  bound : ∀ s seat, ω[s]? = some seat → ∀ name name', C.Spelled seat.mark name name' →
    Option.Rel (C.ValueAlike ω) (m.scopes.own? s name) (m'.scopes.own? s name')
  globals : m'.scopes.names globalScope = m.scopes.names globalScope
  instances : m'.instances.size = m.instances.size
  fields : ∀ (inst : Identity) (name : String), Option.Rel (C.ValueAlike ω)
    ((m.instances[inst]?).bind fun fields => fields.find? name)
    ((m'.instances[inst]?).bind fun fields => fields.find? name)
  hops : ∀ node, C.known node →
    m.hops[node]? = C.hops node ∧ m'.hops[node]? = C.hops node
  fresh : m'.fresh = m.fresh
  current : m'.current = m.current
  depth : m'.depth = m.depth
  sink : m'.sink = m.sink
  clock : m'.clock = m.clock
  readings : m'.readings = m.readings

variable {C : Correspondence} {ω ω' : Plan} {m m' : Machine} {v v' : Value} {s : ScopeId}
  {name name' : String} {Δ : List Bool}

theorem RoutineAlike.mono {around : List Bool → List Bool} {r r' : Routine}
    (h : C.RoutineAlike ω around r r') (hω : ω <+: ω') : C.RoutineAlike ω' around r r' := by
  obtain ⟨hscope, hinitializes, Δ, hleads, hdeclaration⟩ := h
  exact ⟨hscope, hinitializes, Δ, hleads.mono hω, hdeclaration⟩

theorem ClassAlike.mono {c c' : Class} (h : C.ClassAlike ω c c') (hω : ω <+: ω') :
    C.ClassAlike ω' c c' :=
  ⟨h.identity, h.name, fun name => optionRel_mono (h.methods name) fun _ _ h => h.mono hω⟩

theorem ValueAlike.mono (h : C.ValueAlike ω v v') (hω : ω <+: ω') : C.ValueAlike ω' v v' := by
  cases h with
  | function hidentity h => exact .function hidentity (h.mono hω)
  | class_ h => exact .class_ (h.mono hω)
  | instance_ inst h => exact .instance_ inst (h.mono hω)
  | nil => exact .nil
  | boolean b => exact .boolean b
  | number n => exact .number n
  | string s => exact .string s
  | native f => exact .native f

theorem RoutineAlike.le {C' : Correspondence} {around : List Bool → List Bool} {r r' : Routine}
    (h : C.RoutineAlike ω around r r') (hC : C.Le C') : C'.RoutineAlike ω around r r' := by
  obtain ⟨hscope, hinitializes, Δ, hleads, hdeclaration⟩ := h
  exact ⟨hscope, hinitializes, Δ, hleads, hdeclaration.mono hC.likeness⟩

theorem ClassAlike.le {C' : Correspondence} {c c' : Class} (h : C.ClassAlike ω c c')
    (hC : C.Le C') : C'.ClassAlike ω c c' :=
  ⟨h.identity, h.name, fun name => optionRel_mono (h.methods name) fun _ _ h => h.le hC⟩

theorem ValueAlike.le {C' : Correspondence} (h : C.ValueAlike ω v v') (hC : C.Le C') :
    C'.ValueAlike ω v v' := by
  cases h with
  | function hidentity h => exact .function hidentity (h.le hC)
  | class_ h => exact .class_ (h.le hC)
  | instance_ inst h => exact .instance_ inst (h.le hC)
  | nil => exact .nil
  | boolean b => exact .boolean b
  | number n => exact .number n
  | string s => exact .string s
  | native f => exact .native f

/-- Machines that correspond still do when the first one learns more distances that the second one
knows already. -/
theorem Matches.le {C' : Correspondence} (h : C.Matches ω m m') (hC : C.Le C') {hops : Hops}
    (hhops : ∀ node, C'.known node → hops[node]? = C'.hops node ∧ m'.hops[node]? = C'.hops node) :
    C'.Matches ω { m with hops } m' :=
  ⟨h.size, h.size', h.root, h.enclosing,
    fun s seat hs name name' hname =>
      optionRel_mono (h.bound s seat hs name name' (hC.spelled.mp hname)) fun _ _ h => h.le hC,
    h.globals, h.instances,
    fun inst name => optionRel_mono (h.fields inst name) fun _ _ h => h.le hC, hhops, h.fresh,
    h.current, h.depth, h.sink, h.clock, h.readings⟩

theorem declaration_name {d d' : FunctionDecl NodeId}
    (h : FunctionDecl.Alike C.likeness Δ d d') : d'.name.lexeme = d.name.lexeme := by
  cases h with
  | mk hname => exact C.lexeme_eq hname

theorem declaration_arity {d d' : FunctionDecl NodeId}
    (h : FunctionDecl.Alike C.likeness Δ d d') : d'.params.length = d.params.length := by
  cases h with
  | mk _ hparams => exact hparams.length_eq.symm

theorem RoutineAlike.lexeme_eq {around : List Bool → List Bool} {r r' : Routine}
    (h : C.RoutineAlike ω around r r') :
    r'.declaration.name.lexeme = r.declaration.name.lexeme := by
  obtain ⟨-, -, Δ, -, hdeclaration⟩ := h
  exact declaration_name hdeclaration

theorem RoutineAlike.arity {around : List Bool → List Bool} {r r' : Routine}
    (h : C.RoutineAlike ω around r r') : r'.arity = r.arity := by
  obtain ⟨-, -, Δ, -, hdeclaration⟩ := h
  exact declaration_arity hdeclaration

theorem ValueAlike.pieces (h : C.ValueAlike ω v v') : v'.pieces = v.pieces := by
  cases h with
  | function _ h => rw [Value.pieces, Value.pieces, h.lexeme_eq]
  | instance_ _ h => rw [Value.pieces, Value.pieces, h.name]
  | class_ h => exact congrArg (fun name => [name]) h.name
  | _ => rfl

theorem ValueAlike.truthy (h : C.ValueAlike ω v v') : v'.truthy = v.truthy := by
  cases h <;> rfl

theorem ValueAlike.equals {u u' : Value} (h : C.ValueAlike ω v v') (hu : C.ValueAlike ω u u') :
    v'.equals u' = v.equals u := by
  cases h <;> cases hu <;> grind [Value.equals, ClassAlike]

theorem ClassAlike.initializer? {c c' : Class} (h : C.ClassAlike ω c c') :
    Option.Rel (C.RoutineAlike ω (false :: ·)) c.initializer? c'.initializer? :=
  h.methods _

theorem ValueAlike.arity? (h : C.ValueAlike ω v v') : v'.arity? = v.arity? := by
  cases h with
  | function _ h => rw [Value.arity?, Value.arity?, h.arity]
  | class_ h =>
      have hinitializer := h.initializer?
      rw [Value.arity?, Value.arity?]
      generalize Class.initializer? _ = r at hinitializer
      generalize Class.initializer? _ = r' at hinitializer
      cases hinitializer with
      | none => rfl
      | some h => rw [Option.map_some, Option.map_some, h.arity]
  | _ => rfl

theorem Matches.lt_size (h : C.Matches ω m m') (hs : ω.Leads Δ s) : s < ω.length := by
  obtain ⟨outer, hs⟩ := hs.exists_seat h.root
  exact (List.getElem?_eq_some_iff.mp hs).1

theorem Matches.ancestor? (h : C.Matches ω m m') (hs : ω.Leads Δ s) {distance : Nat} {mark : Bool}
    (hmark : Δ[distance]? = some mark) :
    ∃ scope outer, ω[scope]? = some ⟨mark, some outer⟩ ∧
      m.scopes.ancestor? s distance = some scope ∧ m'.scopes.ancestor? s distance = some scope := by
  induction Δ generalizing s distance with
  | nil => simp at hmark
  | cons first Δ ih =>
      obtain ⟨outer, hseat, houter⟩ := hs
      cases distance with
      | zero =>
          cases hmark
          exact ⟨s, outer, hseat, rfl, rfl⟩
      | succ distance =>
          obtain ⟨henclosing, henclosing'⟩ := h.enclosing s _ hseat
          obtain ⟨scope, outer', hscope, hancestor, hancestor'⟩ := ih houter (by simpa using hmark)
          refine ⟨scope, outer', hscope, ?_, ?_⟩
          · rw [Scopes.ancestor?, henclosing, Option.bind_some, hancestor]
          · rw [Scopes.ancestor?, henclosing', Option.bind_some, hancestor']

theorem Matches.push (h : C.Matches ω m m') (hs : ω.Leads Δ s) (mark : Bool) :
    C.Matches (ω ++ [⟨mark, some s⟩]) { m with scopes := m.scopes.push (some s) }
      { m' with scopes := m'.scopes.push (some s) } := by
  have hω : ω <+: ω ++ [⟨mark, some s⟩] := List.prefix_append _ _
  have hlt := h.lt_size hs
  refine ⟨by simp [h.size], by simp [h.size'], Plan.getElem?_mono hω h.root, ?_, ?_, ?_,
    h.instances, ?_, h.hops, h.fresh, h.current, h.depth, h.sink, h.clock, h.readings⟩
  · intro t seat ht
    dsimp only
    rw [Scopes.enclosing?_push, Scopes.enclosing?_push, h.size, h.size']
    by_cases hnew : t = ω.length
    · subst hnew
      rw [List.getElem?_concat_length] at ht
      cases ht
      simp [hlt]
    · rw [if_neg hnew, if_neg hnew]
      have hold : t < ω.length := by
        have hlt := (List.getElem?_eq_some_iff.mp ht).1
        rw [List.length_append, List.length_singleton] at hlt
        exact Nat.lt_of_le_of_ne (Nat.le_of_lt_succ hlt) hnew
      rw [List.getElem?_append_left hold] at ht
      exact h.enclosing t seat ht
  · intro t seat ht name name' hname
    dsimp only
    rw [Scopes.own?_push, Scopes.own?_push]
    by_cases hold : t < ω.length
    · rw [List.getElem?_append_left hold] at ht
      exact optionRel_mono (h.bound t seat ht name name' hname) fun _ _ h => h.mono hω
    · have hle := Nat.not_lt.mp hold
      rw [Scopes.own?_of_size_le (h.size.symm ▸ hle), Scopes.own?_of_size_le (h.size'.symm ▸ hle)]
      exact .none
  · dsimp only
    have hnonempty : globalScope < ω.length := (List.getElem?_eq_some_iff.mp h.root).1
    have hglobal : globalScope < m.scopes.size := by rwa [h.size]
    have hglobal' : globalScope < m'.scopes.size := by rwa [h.size']
    rw [Scopes.names_push hglobal, Scopes.names_push hglobal', h.globals]
  · intro inst name
    exact optionRel_mono (h.fields inst name) fun _ _ h => h.mono hω

theorem Matches.define (h : C.Matches ω m m') {seat : Seat} (hs : ω[s]? = some seat)
    (hname : C.Spelled seat.mark name name') (hv : C.ValueAlike ω v v') :
    C.Matches ω { m with scopes := m.scopes.define s name v }
      { m' with scopes := m'.scopes.define s name' v' } := by
  refine ⟨by simp [h.size], by simp [h.size'], h.root, ?_, ?_, ?_, h.instances, h.fields, h.hops,
    h.fresh, h.current, h.depth, h.sink, h.clock, h.readings⟩
  · intro t other ht
    dsimp only
    rw [Scopes.enclosing?_define, Scopes.enclosing?_define]
    exact h.enclosing t other ht
  · intro t other ht other₁ other₁' hother
    dsimp only
    rw [Scopes.own?_define, Scopes.own?_define, h.size, h.size']
    by_cases hst : s = t
    · subst hst
      rw [hs] at ht
      cases ht
      simp only [hname.eq_iff hother]
      split
      · exact .some hv
      · exact h.bound s seat hs other₁ other₁' hother
    · rw [if_neg fun hall => hst hall.1, if_neg fun hall => hst hall.1]
      exact h.bound t other ht other₁ other₁' hother
  · dsimp only
    by_cases hglobal : s = globalScope
    · subst hglobal
      rw [h.root] at hs
      cases hs
      rw [spelled_false_iff.mp hname]
      exact Scopes.names_define_congr (h.size'.trans h.size.symm) h.globals
    · rw [Scopes.names_define_of_ne hglobal, Scopes.names_define_of_ne hglobal, h.globals]

end Correspondence

end Lox
