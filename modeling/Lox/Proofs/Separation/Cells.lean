import Lox.Proofs.Discipline.Runs

/-!
What can be come to from where.

A running program keeps what changes in scopes and in the fields of instances. From one such place
it comes to another by what is stored there: the enclosing scope, and the scopes and instances that
a value brings along. A function brings the scope around it, a class those around its methods, and
an instance itself and its class.
-/

namespace Lox

/-- Where a running program keeps what changes. -/
inductive Cell
  | scope (s : ScopeId)
  | instance_ (i : Identity)
  deriving DecidableEq, Repr

/-- The place is around a method of the class. -/
def Class.Brings (c : Class) (p : Cell) : Prop :=
  ∃ name r, c.methods.find? name = some r ∧ p = .scope r.scope

/-- Whoever has the value comes to the place. -/
def Value.Brings : Value → Cell → Prop
  | .function f, p => p = .scope f.routine.scope
  | .class_ c, p => c.Brings p
  | .instance_ i c, p => p = .instance_ i ∨ c.Brings p
  | _, _ => False

namespace Heap

variable {h h' h'' : Heap} {roots : Cell → Prop} {p q : Cell}

def Has (h : Heap) : Cell → Prop
  | .scope s => s < h.scopes.size
  | .instance_ i => i < h.instances.size

/-- What is stored at a place is the same in both. -/
def SameAt (h h' : Heap) : Cell → Prop
  | .scope s => h'.scopes.scopes[s]? = h.scopes.scopes[s]?
  | .instance_ i => h'.instances[i]? = h.instances[i]?

/-- What is stored at the first place leads to the second. -/
inductive Links (h : Heap) : Cell → Cell → Prop
  | enclosing {s outer : ScopeId} (houter : h.scopes.enclosing? s = some outer) :
      Links h (.scope s) (.scope outer)
  | bound {s : ScopeId} {name : String} {v : Value} {p : Cell}
      (hv : h.scopes.own? s name = some v) (hp : v.Brings p) : Links h (.scope s) p
  | field {i : Identity} {fields : Bindings Value} {name : String} {v : Value} {p : Cell}
      (hfields : h.instances[i]? = some fields) (hv : fields.find? name = some v)
      (hp : v.Brings p) : Links h (.instance_ i) p

/-- The place can be come to from one of the roots. -/
def Reaches (h : Heap) (roots : Cell → Prop) (p : Cell) : Prop :=
  ∃ root, roots root ∧ Relation.ReflTransGen h.Links root p

/-- What is closed under links, and holds of the roots, holds of all that they come to. -/
theorem Reaches.induction {P : Cell → Prop} (hp : h.Reaches roots p)
    (hroots : ∀ q, roots q → P q) (hlinks : ∀ q r, P q → h.Links q r → P r) : P p := by
  obtain ⟨root, hroot, hpath⟩ := hp
  induction hpath with
  | refl => exact hroots root hroot
  | tail _ hlink ih => exact hlinks _ _ ih hlink

theorem Reaches.link (hp : h.Reaches roots p) (hlink : h.Links p q) : h.Reaches roots q := by
  obtain ⟨root, hroot, hpath⟩ := hp
  exact ⟨root, hroot, hpath.tail hlink⟩

theorem Links.has (hlink : h.Links p q) : h.Has p := by
  cases hlink with
  | enclosing houter => exact Scopes.lt_size_of_enclosing? houter
  | @bound s name v _ hv hp =>
      by_contra hs
      rw [Scopes.own?_of_size_le (Nat.not_lt.mp hs)] at hv
      cases hv
  | field hfields hv hp => exact (Array.getElem?_eq_some_iff.mp hfields).1

theorem SameAt.trans (first : h.SameAt h' p) (second : h'.SameAt h'' p) : h.SameAt h'' p := by
  cases p with
  | scope s => exact Eq.trans second first
  | instance_ i => exact Eq.trans second first

theorem sameAt_push (hp : h.Has p) (outer : ScopeId) : h.SameAt (h.push outer) p := by
  cases p with
  | scope s => exact (Array.getElem?_push_lt hp).trans (Array.getElem?_eq_getElem hp).symm
  | instance_ i => rfl

theorem sameAt_define {s : ScopeId} (hp : p ≠ .scope s) (name : String) (v : Value) :
    h.SameAt (h.define s name v) p := by
  cases p with
  | scope s' =>
      have hs : s ≠ s' := fun heq => hp (heq ▸ rfl)
      simp only [SameAt, define, Scopes.define, Array.getElem?_modify, if_neg hs]
  | instance_ i => rfl

theorem sameAt_addInstance (hp : h.Has p) : h.SameAt h.addInstance p := by
  cases p with
  | scope s => rfl
  | instance_ i => exact (Array.getElem?_push_lt hp).trans (Array.getElem?_eq_getElem hp).symm

theorem sameAt_setField {i : Identity} (hp : p ≠ .instance_ i) (name : String) (v : Value) :
    h.SameAt (h.setField i name v) p := by
  cases p with
  | scope s => rfl
  | instance_ i' =>
      have hi : i ≠ i' := fun heq => hp (heq ▸ rfl)
      simp only [SameAt, setField, Array.getElem?_modify, if_neg hi]

/-- All that was stored before is still there, and some cells of it are as they were. -/
structure Spares (h₀ : Heap) (out : Cell → Prop) (h : Heap) : Prop where
  has : ∀ p, out p → h₀.Has p
  extends_ : h₀.Extends h
  same : ∀ p, out p → h₀.SameAt h p

namespace Spares

variable {h₀ : Heap} {out : Cell → Prop}

theorem refl (hout : ∀ p, out p → h₀.Has p) : h₀.Spares out h₀ :=
  ⟨hout, .refl _, fun p _ => by cases p <;> rfl⟩

theorem has_of_out (hh : h₀.Spares out h) (hp : out p) : h.Has p := by
  have hhas := hh.has p hp
  cases p with
  | scope s => exact Nat.lt_of_lt_of_le hhas hh.extends_.scopes.size_le
  | instance_ i => exact Nat.lt_of_lt_of_le hhas hh.extends_.instances

theorem step (hh : h₀.Spares out h) (hextends : h.Extends h')
    (hsame : ∀ p, out p → h.SameAt h' p) : h₀.Spares out h' :=
  ⟨hh.has, hh.extends_.trans hextends, fun p hp => (hh.same p hp).trans (hsame p hp)⟩

theorem push (hh : h₀.Spares out h) (outer : ScopeId) : h₀.Spares out (h.push outer) :=
  hh.step (h.extends_push outer) fun _ hp => sameAt_push (hh.has_of_out hp) outer

theorem define (hh : h₀.Spares out h) {s : ScopeId} (hs : ¬out (.scope s)) (name : String)
    (v : Value) : h₀.Spares out (h.define s name v) :=
  hh.step (h.extends_define s name v) fun _ hp => sameAt_define (fun heq => hs (heq ▸ hp)) name v

theorem addInstance (hh : h₀.Spares out h) : h₀.Spares out h.addInstance :=
  hh.step h.extends_addInstance fun _ hp => sameAt_addInstance (hh.has_of_out hp)

theorem setField (hh : h₀.Spares out h) {i : Identity} (hi : ¬out (.instance_ i)) (name : String)
    (v : Value) : h₀.Spares out (h.setField i name v) :=
  hh.step (h.extends_setField i name v) fun _ hp =>
    sameAt_setField (fun heq => hi (heq ▸ hp)) name v

theorem not_out_new (hh : h₀.Spares out h) :
    ¬out (.scope h.scopes.size) ∧ ¬out (.instance_ h.instances.size) :=
  ⟨fun hp => Nat.lt_irrefl _ (hh.has_of_out hp), fun hp => Nat.lt_irrefl _ (hh.has_of_out hp)⟩

end Spares

end Heap

/-- What a task is given brings the place. -/
def Task.Brings : Task → Cell → Prop
  | .callValue callee _ vs, p | .invoke callee vs, p => callee.Brings p ∨ ∃ v ∈ vs, v.Brings p
  | .runRoutine r vs, p => p = .scope r.scope ∨ ∃ v ∈ vs, v.Brings p
  | .assign _ _ v, p => v.Brings p
  | .bindMethod r receiver, p => p = .scope r.scope ∨ receiver.Brings p
  | _, _ => False

/-- Where a moment starts from: the current scope, the outermost one, and what its task is given. -/
def Moment.Roots (x : Moment) (p : Cell) : Prop :=
  p = .scope x.machine.current ∨ p = .scope globalScope ∨ x.task.Brings p

namespace Discipline

/-- What a run may come to if it is to keep out of some cells that were there before. -/
def keepingOut (h₀ : Heap) (out : Cell → Prop) (houtermost : ¬out (.scope globalScope)) :
    Discipline where
  mark _ := True
  moment _ := True
  scope s := ¬out (.scope s)
  object i := ¬out (.instance_ i)
  instance_ _ _ := True
  function _ _ := True
  method _ _ := True
  heap h := h₀.Spares out h
  outermost := houtermost
  newScope hh := hh.not_out_new.1
  newObject hh := hh.not_out_new.2
  newInstance _ := trivial
  declared _ _ _ := trivial
  declaredMethod _ _ := trivial
  bound _ _ _ := trivial
  instance_extends _ _ := trivial
  function_extends _ _ := trivial
  heap_push _ _ hh := hh.push _
  heap_receive _ hh hpush := hpush.define hh.not_out_new.1 _ _
  heap_define v _ _ hs _ hh := hh.define hs _ v
  heap_addInstance hh := hh.addInstance
  heap_setField name v hi hh := hh.setField hi name v

section

variable {h₀ h : Heap} {out : Cell → Prop} {houtermost : ¬out (.scope globalScope)}

theorem allows_keepingOut_iff {v : Value} :
    (keepingOut h₀ out houtermost).Allows h v ↔ ∀ p, v.Brings p → ¬out p := by
  have hmarked : ∀ marks, (keepingOut h₀ out houtermost).Marked marks := fun _ _ _ => trivial
  have hclass : ∀ c : Class, (keepingOut h₀ out houtermost).AllowsClass c ↔
      ∀ p, c.Brings p → ¬out p := by
    intro c
    constructor
    · rintro hc p ⟨name, r, hr, rfl⟩
      exact (hc name r hr).scope
    · intro hc name r hr
      exact ⟨⟨hc _ ⟨name, r, hr, rfl⟩, hmarked _⟩, trivial⟩
  cases v with
  | function f =>
      constructor
      · rintro hf p rfl
        exact hf.scope
      · intro hf
        exact ⟨⟨hf _ rfl, hmarked _⟩, trivial⟩
  | class_ c => exact hclass c
  | instance_ i c =>
      constructor
      · rintro ⟨hi, -, hc⟩ p (rfl | hp)
        · exact hi
        · exact (hclass c).mp hc p hp
      · intro hv
        exact ⟨hv _ (.inl rfl), trivial, (hclass c).mpr fun p hp => hv p (.inr hp)⟩
  | _ => simp [Allows, Value.Brings]

/-- What is stored is allowed if no link leads into the cells from outside. -/
theorem stores_keepingOut_iff :
    (keepingOut h₀ out houtermost).Stores h ↔
      h₀.Spares out h ∧ ∀ p q, ¬out p → h.Links p q → ¬out q := by
  constructor
  · intro hh
    refine ⟨hh.heap, ?_⟩
    intro p q hp hlink
    cases hlink with
    | enclosing houter => exact hh.enclosing _ _ hp houter
    | bound hv hq => exact allows_keepingOut_iff.mp (hh.bound _ _ _ hp hv) _ hq
    | field hfields hv hq => exact allows_keepingOut_iff.mp (hh.fields _ _ _ _ hp hfields hv) _ hq
  · rintro ⟨hspares, hlinks⟩
    refine ⟨?_, ?_, ?_, hspares⟩
    · intro s outer hs houter
      exact hlinks _ _ hs (.enclosing houter)
    · intro s name v hs hv
      exact allows_keepingOut_iff.mpr fun p hp => hlinks _ _ hs (.bound hv hp)
    · intro i fields name v hi hfields hv
      exact allows_keepingOut_iff.mpr fun p hp => hlinks _ _ hi (.field hfields hv hp)

theorem allowsTask_keepingOut {task : Task} (h' : ∀ p, task.Brings p → ¬out p) :
    (keepingOut h₀ out houtermost).AllowsTask h task := by
  have hmarked : ∀ marks, (keepingOut h₀ out houtermost).Marked marks := fun _ _ _ => trivial
  cases task with
  | callValue callee paren vs | invoke callee vs =>
      exact ⟨allows_keepingOut_iff.mpr fun p hp => h' p (.inl hp),
        fun v hv => allows_keepingOut_iff.mpr fun p hp => h' p (.inr ⟨v, hv, hp⟩)⟩
  | runRoutine r vs =>
      exact ⟨⟨⟨h' _ (.inl rfl), hmarked _⟩, trivial⟩,
        fun v hv => allows_keepingOut_iff.mpr fun p hp => h' p (.inr ⟨v, hv, hp⟩)⟩
  | assign node name v => exact ⟨trivial, allows_keepingOut_iff.mpr fun p hp => h' p hp⟩
  | bindMethod r receiver =>
      exact ⟨⟨"", ⟨h' _ (.inl rfl), hmarked _⟩, trivial⟩,
        allows_keepingOut_iff.mpr fun p hp => h' p (.inr hp)⟩
  | lookUp node name => trivial
  | evaluate e | evaluateAll es | execute s | executeAll ss => exact hmarked _

end

end Discipline

end Lox
