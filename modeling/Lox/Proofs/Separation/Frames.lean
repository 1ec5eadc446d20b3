import Lox.Proofs.Discipline.Sessions
import Lox.Proofs.Separation.Cells
import Lox.Proofs.Separation.Timeline

/-!
A run changes only what it can come to.

What cannot be come to from where a run starts keeps out of its way: it stays as it is, and out of
reach. A scope is changed only by code that runs inside of it, and since every call makes a scope of
its own, two calls have no variable in common.
-/

namespace Lox

/-- The values that are handed on. -/
def Ending.values : Ending (List Value) → List Value
  | .done vs _ => vs
  | _ => []

/-- What a moment hands on brings the cell. -/
def Moment.Returns (x : Moment) (p : Cell) : Prop := ∃ v ∈ x.ending.values, v.Brings p

namespace Discipline

variable {D : Discipline} {x : Moment} {m : Machine}

theorem Ends.of_left (h : D.Ends x) (hleft : x.Left m) :
    D.Keeps m ∧ ∀ v ∈ x.ending.values, D.Allows m.heap v := by
  rw [Ends] at h
  rw [Moment.Left] at hleft
  cases hending : x.ending with
  | done vs m' =>
      rw [hending] at h hleft
      cases hleft
      exact h.2
  | failed fault m' =>
      rw [hending] at h hleft
      cases hleft
      exact ⟨h.2.1, List.forall_mem_nil _⟩
  | unfinished =>
      rw [hending] at hleft
      cases hleft

/-- A run that is given nothing of some cells, and cannot come to them, keeps out of them. -/
theorem admits_keepingOut {out : Cell → Prop} (houtermost : ¬out (.scope globalScope))
    (hhas : ∀ p, out p → x.machine.heap.Has p)
    (hlinks : ∀ p q, ¬out p → x.machine.heap.Links p q → ¬out q)
    (hroots : ∀ p, x.Roots p → ¬out p) :
    (keepingOut x.machine.heap out houtermost).Admits x where
  keeps := ⟨hroots _ (.inl rfl), stores_keepingOut_iff.mpr ⟨.refl hhas, hlinks⟩⟩
  foresees _ _ := trivial
  task := allowsTask_keepingOut fun p hp => hroots p (.inr (.inr hp))

/-- What code does that never runs inside of a scope. -/
def outsideOf (h₀ : Heap) (s : ScopeId) (houtermost : s ≠ globalScope) : Discipline where
  mark _ := True
  moment x := s < x.machine.scopes.size ∧ ¬x.machine.Inside s
  scope _ := True
  object _ := True
  instance_ _ _ := True
  function _ _ := True
  method _ _ := True
  heap h := h₀.Spares (· = .scope s) h
  outermost := trivial
  newScope _ := trivial
  newObject _ := trivial
  newInstance _ := trivial
  declared _ _ _ := trivial
  declaredMethod _ _ := trivial
  bound _ _ _ := trivial
  instance_extends _ _ := trivial
  function_extends _ _ := trivial
  heap_push _ _ hh := hh.push _
  heap_receive _ hh hpush := hpush.define hh.not_out_new.1 _ _
  heap_define v hx hplace _ _ hh := by
    refine hh.define ?_ _ v
    rintro ⟨⟩
    rcases hplace with rfl | hinside | ⟨-, rfl⟩
    · exact houtermost rfl
    · exact hx.2 hinside
    · exact Nat.lt_irrefl _ hx.1
  heap_addInstance hh := hh.addInstance
  heap_setField name v _ hh := hh.setField (by simp) name v

section

variable {h₀ h : Heap} {s : ScopeId} {houtermost : s ≠ globalScope}

theorem allowsRoutine_outsideOf (r : Routine) : (outsideOf h₀ s houtermost).AllowsRoutine r :=
  ⟨trivial, fun _ _ => trivial⟩

theorem allows_outsideOf (v : Value) : (outsideOf h₀ s houtermost).Allows h v := by
  have hclass : ∀ c : Class, (outsideOf h₀ s houtermost).AllowsClass c :=
    fun _ _ r _ => ⟨allowsRoutine_outsideOf r, trivial⟩
  cases v with
  | function f => exact ⟨allowsRoutine_outsideOf f.routine, trivial⟩
  | class_ c => exact hclass c
  | instance_ i c => exact ⟨trivial, trivial, hclass c⟩
  | _ => trivial

theorem allowsTask_outsideOf (task : Task) : (outsideOf h₀ s houtermost).AllowsTask h task := by
  cases task with
  | callValue callee _ vs | invoke callee vs =>
      exact ⟨allows_outsideOf callee, fun v _ => allows_outsideOf v⟩
  | runRoutine r vs => exact ⟨⟨allowsRoutine_outsideOf r, trivial⟩, fun v _ => allows_outsideOf v⟩
  | assign node name v => exact ⟨trivial, allows_outsideOf v⟩
  | bindMethod r receiver =>
      exact ⟨⟨"", allowsRoutine_outsideOf r, trivial⟩, allows_outsideOf receiver⟩
  | lookUp node name => trivial
  | evaluate e | evaluateAll es | execute s | executeAll ss => exact fun _ _ => trivial

end

theorem admits_outsideOf {s : ScopeId} (houtermost : s ≠ globalScope)
    (hs : s < x.machine.scopes.size) (houtside : ∀ y, Within x y → ¬y.machine.Inside s) :
    (outsideOf x.machine.heap s houtermost).Admits x where
  keeps :=
    { current := trivial
      stores :=
        { enclosing _ _ _ _ := trivial
          bound _ _ _ _ _ := allows_outsideOf _
          fields _ _ _ _ _ _ _ := allows_outsideOf _
          heap := .refl fun _ hp => hp ▸ hs } }
  foresees y hy :=
    ⟨Nat.lt_of_lt_of_le hs (Within.extends hy).size_le, houtside y hy⟩
  task := allowsTask_outsideOf _

end Discipline

namespace Moment

variable {x : Moment} {m : Machine}

/-- What a run cannot come to stays as it is, and out of reach. -/
theorem Left.unreached (h : x.Left m) {p : Cell} (hhas : x.machine.heap.Has p)
    (hp : ¬x.machine.heap.Reaches x.Roots p) :
    x.machine.heap.SameAt m.heap p ∧ ¬m.heap.Reaches (fun q => x.Roots q ∨ x.Returns q) p := by
  let out (q : Cell) : Prop := x.machine.heap.Has q ∧ ¬x.machine.heap.Reaches x.Roots q
  have hroots : ∀ q, x.Roots q → ¬out q := fun q hq hout => hout.2 ⟨q, hq, .refl⟩
  have hlinks : ∀ q r, ¬out q → x.machine.heap.Links q r → ¬out r := by
    intro q r hq hlink hr
    have hreaches : x.machine.heap.Reaches x.Roots q := by
      by_contra hnot
      exact hq ⟨hlink.has, hnot⟩
    exact hr.2 (hreaches.link hlink)
  have houtermost : ¬out (.scope globalScope) := hroots _ (.inr (.inl rfl))
  have hadmits := Discipline.admits_keepingOut houtermost (fun q hq => hq.1) hlinks hroots
  obtain ⟨hkeeps, hvalues⟩ := hadmits.ends.of_left h
  obtain ⟨hspares, hlinks'⟩ := Discipline.stores_keepingOut_iff.mp hkeeps.stores
  refine ⟨hspares.same p ⟨hhas, hp⟩, fun hreaches => ?_⟩
  refine hreaches.induction (P := fun q => ¬out q) ?_ hlinks' ⟨hhas, hp⟩
  rintro q (hq | ⟨v, hv, hq⟩)
  · exact hroots q hq
  · exact Discipline.allows_keepingOut_iff.mp (hvalues v hv) q hq

/-- A scope other than the outermost one is changed only by code that runs inside of it. -/
theorem Left.exists_inside (h : x.Left m) {s : ScopeId} (hs : s < x.machine.scopes.size)
    (hchanged : ¬x.machine.heap.SameAt m.heap (.scope s)) :
    s = globalScope ∨ ∃ y, Within x y ∧ y.machine.Inside s := by
  -- A run without code inside of the scope keeps to a discipline that leaves the scope alone.
  by_contra hnone
  rw [not_or, not_exists] at hnone
  have houtside : ∀ y, Within x y → ¬y.machine.Inside s :=
    fun y hy hinside => hnone.2 y ⟨hy, hinside⟩
  have hadmits := Discipline.admits_outsideOf hnone.1 hs houtside
  exact hchanged ((hadmits.ends.of_left h).1.stores.heap.same _ rfl)

/-- Whatever is run on whatever machine, and however it ends, what could not be come to from the
current scope, from the outermost one or from what the run was given is as it was, and can still
not be come to, not even from what the run hands on. No two of the calls and blocks that are run
make the same scope, each of them makes one that was not there before, and a scope that was there
is changed only by code that runs inside of it, unless it is the outermost one. -/
theorem Left.separates (h : x.Left m) :
    (∀ p, x.machine.heap.Has p → ¬x.machine.heap.Reaches x.Roots p →
      x.machine.heap.SameAt m.heap p ∧
        ¬m.heap.Reaches (fun q => x.Roots q ∨ x.Returns q) p) ∧
    (∀ s, x.machine.heap.Has (.scope s) → ¬x.machine.heap.SameAt m.heap (.scope s) →
      s = globalScope ∨ ∃ y, Within x y ∧ y.machine.Inside s) ∧
    (∀ y, Within x y → y.makes?.isSome →
      x.machine.scopes.size ≤ y.machine.scopes.size ∧ y.machine.scopes.size < m.scopes.size) ∧
    ∀ y z, Within x y → Within x z → y.makes?.isSome → z.makes?.isSome →
      y.machine.scopes.size = z.machine.scopes.size → y = z := by
  refine ⟨fun p hhas hp => h.unreached hhas hp, fun s hs hchanged => h.exists_inside hs hchanged,
    ?_, fun y z hy hz hmakes hmakes' hsize => hy.eq_of_makes hz hmakes hmakes' hsize⟩
  intro y hy hmakes
  exact ⟨(Within.extends hy).size_le, hy.lt_size h hmakes⟩

theorem Left.separates_of_block :
    ∃ (x : Moment) (m : Machine), x.Left m ∧ x.machine.heap.Has (.scope 1) ∧
      ¬x.machine.heap.Reaches x.Roots (.scope 1) ∧ x.machine.heap.SameAt m.heap (.scope 1) ∧
      ¬m.heap.Reaches (fun q => x.Roots q ∨ x.Returns q) (.scope 1) := by
  let a : Token := ⟨.identifier, "a", 1⟩
  let scopes := ((Machine.new fun _ => 0).scopes.push (some globalScope)).define 1 "n" .nil
  let m₀ : Machine := { Machine.new (fun _ => 0) with scopes }
  let x : Moment := ⟨9, .execute (.block [.var a none]), m₀⟩
  have hleft : x.Left { m₀ with scopes := (m₀.scopes.push (some 0)).define 2 "a" .nil } := rfl
  have hunreached : ¬x.machine.heap.Reaches x.Roots (.scope 1) := by
    intro hreaches
    refine absurd (hreaches.induction (P := fun q => q = .scope globalScope) ?_ ?_) (by decide)
    · rintro q (rfl | rfl | hq)
      · rfl
      · rfl
      · cases hq
    · rintro q r rfl hlink
      cases hlink with
      | enclosing houter =>
          rw [Scopes.enclosing?_globalScope] at houter
          cases houter
      | bound hv hr =>
          replace hv : scopes.own? globalScope _ = _ := hv
          rw [Scopes.own?_define, if_neg (by simp [globalScope]), Scopes.own?_push] at hv
          cases Machine.own?_new _ hv
          cases hr
  have hhas : x.machine.heap.Has (.scope 1) := Nat.lt_succ_self 1
  exact ⟨x, _, hleft, hhas, hunreached, (Left.separates hleft).1 (.scope 1) hhas hunreached⟩

end Moment

end Lox
