import Lox.Proofs.Marks.Trees
import Lox.Proofs.Running.Outcomes

/-!
Rules that a run keeps to.

A discipline says what may be met in the course of a run: which tokens its programs use and how,
which scopes and instances it comes to, which functions and methods it holds, and what is stored.
It asks of each elementary step on its own that the step stays within these bounds. A machine keeps
to the discipline if what can be come to from its scope does.
-/

namespace Lox

theorem Scopes.enclosing?_globalScope {α : Type} (ss : Scopes α) :
    ss.enclosing? globalScope = none := by
  cases houter : ss.enclosing? globalScope with
  | none => rfl
  | some outer => exact absurd (Scopes.enclosing?_lt houter) (Nat.not_lt_zero _)

/-- What a machine stores. -/
structure Heap where
  scopes : Scopes Value
  instances : Array (Bindings Value)

def Machine.heap (m : Machine) : Heap := ⟨m.scopes, m.instances⟩

namespace Heap

/-- All that was stored is still there. -/
structure Extends (h h' : Heap) : Prop where
  scopes : h.scopes.Extends h'.scopes
  instances : h.instances.size ≤ h'.instances.size

theorem Extends.refl (h : Heap) : h.Extends h := ⟨.refl _, Nat.le_refl _⟩

theorem Extends.trans {h h' h'' : Heap} (first : h.Extends h') (second : h'.Extends h'') :
    h.Extends h'' :=
  ⟨first.scopes.trans second.scopes, Nat.le_trans first.instances second.instances⟩

/-- With a new scope. -/
def push (h : Heap) (outer : ScopeId) : Heap := { h with scopes := h.scopes.push (some outer) }

def define (h : Heap) (s : ScopeId) (name : String) (v : Value) : Heap :=
  { h with scopes := h.scopes.define s name v }

def addInstance (h : Heap) : Heap := { h with instances := h.instances.push .empty }

def setField (h : Heap) (inst : Identity) (name : String) (v : Value) : Heap :=
  { h with instances := h.instances.modify inst (·.insert name v) }

/-- With a new scope that holds the receiver of a method. -/
def bind (h : Heap) (r : Routine) (receiver : Value) : Heap :=
  (h.push r.scope).define h.scopes.size Resolution.thisName receiver

theorem extends_push (h : Heap) (outer : ScopeId) : h.Extends (h.push outer) :=
  ⟨.push _ _, Nat.le_refl _⟩

theorem extends_define (h : Heap) (s : ScopeId) (name : String) (v : Value) :
    h.Extends (h.define s name v) :=
  ⟨.define _ _ _ _, Nat.le_refl _⟩

theorem extends_bind (h : Heap) (r : Routine) (receiver : Value) :
    h.Extends (h.bind r receiver) :=
  (h.extends_push r.scope).trans (extends_define _ _ _ _)

theorem extends_addInstance (h : Heap) : h.Extends h.addInstance :=
  ⟨.refl _, by simp [addInstance]⟩

theorem extends_setField (h : Heap) (inst : Identity) (name : String) (v : Value) :
    h.Extends (h.setField inst name v) :=
  ⟨.refl _, by simp [setField]⟩

end Heap

theorem Machine.Follows.heap {m m' : Machine} (h : m.Follows m') : m.heap.Extends m'.heap :=
  ⟨h.scopes, h.instances⟩

/-- The scope around the one that is made at a moment. -/
def Moment.around (x : Moment) : ScopeId :=
  match x.task with
  | .runRoutine r _ => r.scope
  | .bindMethod r _ => r.scope
  | _ => x.machine.current

/-- The code of a machine runs inside of a scope if it stands there or further in. -/
def Machine.Inside (m : Machine) (s : ScopeId) : Prop :=
  ∃ distance, m.scopes.ancestor? m.current distance = some s

/-- The scopes in which a moment may bind a name: the outermost one, those that it is inside of, and
the one that it makes. -/
def Moment.MayBind (x : Moment) (s : ScopeId) : Prop :=
  s = globalScope ∨ x.machine.Inside s ∨ x.makes?.isSome ∧ s = x.machine.scopes.size

theorem Moment.mayBind_current (x : Moment) : x.MayBind x.machine.current := .inr (.inl ⟨0, rfl⟩)

/-- Bounds for what is met in the course of a run, which every elementary step respects. -/
structure Discipline where
  mark : Mark → Prop
  moment : Moment → Prop
  /-- The scopes that the run may come to. -/
  scope : ScopeId → Prop
  /-- The instances whose fields it may come to. -/
  object : Identity → Prop
  /-- What a value that is an instance has to be, and a value that is a function. -/
  instance_ : Heap → Identity → Prop
  function : Heap → Routine → Prop
  /-- The methods that a class may have, each under its name. -/
  method : String → Routine → Prop
  heap : Heap → Prop
  outermost : scope globalScope
  newScope : ∀ {h}, heap h → scope h.scopes.size
  newObject : ∀ {h}, heap h → object h.instances.size
  newInstance : ∀ h : Heap, instance_ h.addInstance h.instances.size
  declared : ∀ h d s, function h ⟨d, s, false⟩
  declaredMethod : ∀ (d : FunctionDecl NodeId) s,
    method d.name.lexeme ⟨d, s, d.name.lexeme = Resolution.initializerName⟩
  bound : ∀ {name r} (h : Heap) receiver, method name r →
    function (h.bind r receiver) { r with scope := h.scopes.size }
  instance_extends : ∀ {h h' i}, h.Extends h' → instance_ h i → instance_ h' i
  function_extends : ∀ {h h' r}, h.Extends h' → function h r → function h' r
  heap_push : ∀ {x kind}, moment x → x.makes? = some kind → heap x.machine.heap →
    heap (x.machine.heap.push x.around)
  heap_receive : ∀ {n r receiver m}, moment ⟨n, .bindMethod r receiver, m⟩ → heap m.heap →
    heap (m.heap.push r.scope) → heap (m.heap.bind r receiver)
  heap_define : ∀ {x h s} {t : Token} (v : Value), moment x → x.MayBind s → scope s →
    mark (.binder t) ∨ mark (.target t) → heap h → heap (h.define s t.lexeme v)
  heap_addInstance : ∀ {h}, heap h → heap h.addInstance
  heap_setField : ∀ {h i} (name : String) (v : Value), object i → heap h →
    heap (h.setField i name v)

namespace Discipline

variable (D : Discipline)

/-- All marks are allowed. -/
def Marked (marks : List Mark) : Prop := ∀ k ∈ marks, D.mark k

/-- The text of the routine and the scope around it are allowed. -/
structure AllowsRoutine (r : Routine) : Prop where
  scope : D.scope r.scope
  marked : D.Marked r.declaration.marks

/-- A routine that is a function. -/
structure AllowsFunction (h : Heap) (r : Routine) : Prop extends D.AllowsRoutine r where
  function : D.function h r

/-- A routine that is the method of this name. -/
structure AllowsMethod (name : String) (r : Routine) : Prop extends D.AllowsRoutine r where
  method : D.method name r

def AllowsClass (c : Class) : Prop :=
  ∀ name r, c.methods.find? name = some r → D.AllowsMethod name r

def Allows (h : Heap) : Value → Prop
  | .function f => D.AllowsFunction h f.routine
  | .class_ c => D.AllowsClass c
  | .instance_ i c => D.object i ∧ D.instance_ h i ∧ D.AllowsClass c
  | _ => True

/-- What the heap holds in places that are allowed is allowed. -/
structure Stores (h : Heap) : Prop where
  enclosing : ∀ s outer, D.scope s → h.scopes.enclosing? s = some outer → D.scope outer
  bound : ∀ s name v, D.scope s → h.scopes.own? s name = some v → D.Allows h v
  fields : ∀ (i : Identity) (fields : Bindings Value) name v, D.object i →
    h.instances[i]? = some fields → fields.find? name = some v → D.Allows h v
  heap : D.heap h

/-- The machine stands in a scope that is allowed, and comes only to what is allowed from there. -/
structure Keeps (m : Machine) : Prop where
  current : D.scope m.current
  stores : D.Stores m.heap

/-- What a task asks for. -/
def AllowsTask (h : Heap) : Task → Prop
  | .evaluate e => D.Marked e.marks
  | .evaluateAll es => D.Marked (Expr.marksAll es)
  | .callValue callee _ vs => D.Allows h callee ∧ ∀ v ∈ vs, D.Allows h v
  | .invoke callee vs => D.Allows h callee ∧ ∀ v ∈ vs, D.Allows h v
  | .runRoutine r vs => D.AllowsFunction h r ∧ ∀ v ∈ vs, D.Allows h v
  | .execute s => D.Marked s.marks
  | .executeAll ss => D.Marked (Stmt.marksAll ss)
  | .lookUp _ _ => True
  | .assign _ name v => D.mark (.target name) ∧ D.Allows h v
  | .bindMethod r receiver => (∃ name, D.AllowsMethod name r) ∧ D.Allows h receiver

/-- The machine keeps to the discipline, and the task may be run on it. -/
structure Admits (x : Moment) : Prop where
  keeps : D.Keeps x.machine
  foresees : ∀ y, Within x y → D.moment y
  task : D.AllowsTask x.machine.heap x.task

/-- A token is called no operator only where it is used as one and is of no such kind. -/
structure Explains (fault : Diagnostic) : Prop where
  unary : ∀ t, fault = .runtime t .notUnaryOperator →
    D.mark (.unary t) ∧ t.kind ∉ Parsing.unaryOperators
  binary : ∀ t, fault = .runtime t .notBinaryOperator →
    D.mark (.binary t) ∧ t.kind ∉ binaryOperators

/-- However the run ends, it is back where it was and its machine keeps to the discipline. -/
def EndsAt {α : Type} (m : Machine) (P : α → Heap → Prop) : Ending α → Prop
  | .done v m' => m.Follows m' ∧ D.Keeps m' ∧ P v m'.heap
  | .failed fault m' => m.Follows m' ∧ D.Keeps m' ∧ D.Explains fault
  | .unfinished => True

/-- What comes of a moment. -/
def Ends (x : Moment) : Prop :=
  D.EndsAt x.machine (fun vs h => ∀ v ∈ vs, D.Allows h v) x.ending

variable {D} {h h' : Heap} {m m' : Machine} {s : ScopeId} {v : Value} {marks more : List Mark}
  {r : Routine}

theorem Marked.mono (hmarks : D.Marked more) (hsubset : marks ⊆ more) : D.Marked marks :=
  fun k hk => hmarks k (hsubset hk)

theorem AllowsFunction.extends (hr : D.AllowsFunction h r) (hextends : h.Extends h') :
    D.AllowsFunction h' r :=
  ⟨hr.toAllowsRoutine, D.function_extends hextends hr.function⟩

theorem Allows.extends (hv : D.Allows h v) (hextends : h.Extends h') : D.Allows h' v := by
  cases v with
  | function f => exact AllowsFunction.extends hv hextends
  | instance_ i c => exact ⟨hv.1, D.instance_extends hextends hv.2.1, hv.2.2⟩
  | _ => exact hv

theorem AllowsRoutine.marked_body (hr : D.AllowsRoutine r) :
    D.Marked (Stmt.marksAll r.declaration.body) := by
  refine hr.marked.mono ?_
  rw [FunctionDecl.marks_eq]
  exact List.subset_cons_of_subset _ (List.subset_append_right _ _)

theorem AllowsRoutine.mark_param (hr : D.AllowsRoutine r) {t : Token}
    (ht : t ∈ r.declaration.params) : D.mark (.binder t) := by
  refine hr.marked _ ?_
  rw [FunctionDecl.marks_eq]
  exact List.mem_cons_of_mem _ (List.mem_append_left _ (List.mem_map_of_mem ht))

theorem Keeps.inScope (hm : D.Keeps m) (hs : D.scope s) : D.Keeps { m with current := s } :=
  ⟨hs, hm.stores⟩

namespace Stores

theorem ancestor? (hh : D.Stores h) {target : ScopeId} {distance : Nat} (hs : D.scope s)
    (htarget : h.scopes.ancestor? s distance = some target) : D.scope target := by
  induction distance generalizing s with
  | zero =>
      cases htarget
      exact hs
  | succ distance ih =>
      obtain ⟨outer, houter, htarget⟩ := Option.bind_eq_some_iff.mp htarget
      exact ih (hh.enclosing s outer hs houter) htarget

/-- A heap with other places that are allowed, in which all values that are found are old ones or
new ones that are allowed. -/
theorem push (hh : D.Stores h) {outer : ScopeId} (houter : D.scope outer)
    (hheap : D.heap (h.push outer)) : D.Stores (h.push outer) := by
  have hextends := h.extends_push outer
  refine ⟨?_, ?_, ?_, hheap⟩
  · intro s outer' hs houter'
    rw [Heap.push, Scopes.enclosing?_push] at houter'
    split at houter'
    · cases (Option.filter_eq_some_iff.mp houter').1
      exact houter
    · exact hh.enclosing s outer' hs houter'
  · intro s name v hs hv
    rw [Heap.push, Scopes.own?_push] at hv
    exact (hh.bound s name v hs hv).extends hextends
  · intro i fields name v hi hfields hv
    exact (hh.fields i fields name v hi hfields hv).extends hextends

theorem define (hh : D.Stores h) (name : String) (hv : D.Allows h v)
    (hheap : D.heap (h.define s name v)) : D.Stores (h.define s name v) := by
  have hextends := h.extends_define s name v
  refine ⟨?_, ?_, ?_, hheap⟩
  · intro s' outer hs' houter
    rw [Heap.define, Scopes.enclosing?_define] at houter
    exact hh.enclosing s' outer hs' houter
  · intro s' name' v' hs' hv'
    rw [Heap.define, Scopes.own?_define] at hv'
    split at hv'
    · cases hv'
      exact hv.extends hextends
    · exact (hh.bound s' name' v' hs' hv').extends hextends
  · intro i fields name' v' hi hfields hv'
    exact (hh.fields i fields name' v' hi hfields hv').extends hextends

theorem addInstance (hh : D.Stores h) : D.Stores h.addInstance := by
  have hextends := h.extends_addInstance
  refine ⟨hh.enclosing, fun s name v hs hv => (hh.bound s name v hs hv).extends hextends, ?_,
    D.heap_addInstance hh.heap⟩
  intro i fields name v hi hfields hv
  rw [Heap.addInstance, Array.getElem?_push] at hfields
  split at hfields
  · cases hfields
    cases hv
  · exact (hh.fields i fields name v hi hfields hv).extends hextends

theorem setField (hh : D.Stores h) {i : Identity} (hi : D.object i) (name : String)
    (hv : D.Allows h v) : D.Stores (h.setField i name v) := by
  have hextends := h.extends_setField i name v
  refine ⟨hh.enclosing, fun s name v hs hv => (hh.bound s name v hs hv).extends hextends, ?_,
    D.heap_setField name v hi hh.heap⟩
  intro i' fields name' v' hi' hfields hv'
  rw [Heap.setField, Array.getElem?_modify] at hfields
  split at hfields
  · obtain ⟨old, hold, rfl⟩ := Option.map_eq_some_iff.mp hfields
    rw [Bindings.find?_insert] at hv'
    split at hv'
    · cases hv'
      exact hv.extends hextends
    · exact (hh.fields i' old name' v' hi' hold hv').extends hextends
  · exact (hh.fields i' fields name' v' hi' hfields hv').extends hextends

theorem defineAll (hh : D.Stores h) {x : Moment} (hx : D.moment x) (hplace : x.MayBind s)
    (hs : D.scope s) {params : List Token} {vs : List Value}
    (hparams : ∀ t ∈ params, D.mark (.binder t))
    (hvs : ∀ v ∈ vs, D.Allows h v) :
    D.Stores { h with scopes := h.scopes.defineAll s params vs } := by
  induction params generalizing h vs with
  | nil => exact hh
  | cons param params ih =>
      cases vs with
      | nil => exact hh
      | cons v vs =>
          have hextends := h.extends_define s param.lexeme v
          have hparam := hparams param List.mem_cons_self
          have hdefine := hh.define (s := s) param.lexeme (hvs v List.mem_cons_self)
            (D.heap_define v hx hplace hs (.inl hparam) hh.heap)
          exact ih hdefine (fun t ht => hparams t (List.mem_cons_of_mem _ ht))
            fun v' hv' => (hvs v' (List.mem_cons_of_mem _ hv')).extends hextends

end Stores

namespace Keeps

theorem enterBlock (hm : D.Keeps m) {n : Nat} {ss : List (Stmt NodeId)}
    (hx : D.moment ⟨n + 1, .execute (.block ss), m⟩) : D.Keeps m.enterBlock := by
  have hmakes : Moment.makes? ⟨n + 1, .execute (.block ss), m⟩ = some .block := by
    simp [Moment.makes?]
  exact ⟨D.newScope hm.stores.heap,
    hm.stores.push hm.current (D.heap_push hx hmakes hm.stores.heap)⟩

theorem enterCall (hm : D.Keeps m) {n : Nat} {vs : List Value}
    (hx : D.moment ⟨n + 1, .runRoutine r vs, m⟩) (hr : D.AllowsRoutine r)
    (hvs : ∀ v ∈ vs, D.Allows m.heap v) : D.Keeps (m.enterCall r vs) := by
  have hnew := D.newScope hm.stores.heap
  have hmakes : Moment.makes? ⟨n + 1, .runRoutine r vs, m⟩ = some .call := by
    simp [Moment.makes?]
  have hpush := hm.stores.push hr.scope (D.heap_push hx hmakes hm.stores.heap)
  have hplace : Moment.MayBind ⟨n + 1, .runRoutine r vs, m⟩ m.scopes.size :=
    .inr (.inr ⟨by rw [hmakes]; rfl, rfl⟩)
  refine ⟨hnew, hpush.defineAll hx hplace hnew (fun t ht => hr.mark_param ht) ?_⟩
  exact fun v hv => (hvs v hv).extends (m.heap.extends_push r.scope)

theorem bind (hm : D.Keeps m) {n : Nat} {receiver : Value}
    (hx : D.moment ⟨n, .bindMethod r receiver, m⟩) (hr : D.AllowsRoutine r)
    (hreceiver : D.Allows m.heap receiver) : D.Keeps (m.bind r receiver) := by
  have hheap := D.heap_push hx rfl hm.stores.heap
  have hpush := hm.stores.push hr.scope hheap
  have hreceiver' := hreceiver.extends (m.heap.extends_push r.scope)
  exact ⟨hm.current, hpush.define _ hreceiver' (D.heap_receive hx hm.stores.heap hheap)⟩

theorem addInstance (hm : D.Keeps m) : D.Keeps m.addInstance :=
  ⟨hm.current, hm.stores.addInstance⟩

end Keeps

end Discipline

end Lox
