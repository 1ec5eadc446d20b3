import Lox.Proofs.Receivers.Serving
import Lox.Proofs.Running.Returns

/-!
What calls of classes and of initializers give.

A class that is called gives an instance that was not there before. An initializer gives the
instance that it was obtained from, whatever its body returns, since it always finds its receiver.
-/

namespace Lox

open Resolution

variable {n : Nat} {m m' : Machine} {callee v : Value} {paren : Token} {vs : List Value}
  {r : Routine} {c : Class}

theorem exists_of_callValue (h : callValue n callee paren vs m = .done v m') :
    ∃ k m₁, n = k + 1 ∧ Run.checkCall callee vs.length paren m = .done () m ∧
      invoke k callee vs m.countCall = .done v m₁ := by
  cases n with
  | zero => cases h
  | succ k =>
      obtain ⟨_, m₀, hcheck, hcounted⟩ := Run.exists_of_bind_done h
      obtain ⟨-, rfl⟩ := Run.arity?_of_checkCall hcheck
      unfold Run.counted at hcounted
      split at hcounted
      · rename_i hinvoke
        cases hcounted
        exact ⟨k, _, rfl, hcheck, hinvoke⟩
      · cases hcounted
      · cases hcounted

theorem value_of_invoke_class (h : invoke n (.class_ c) vs m = .done v m') :
    v = .instance_ m.instances.size c := by
  cases n with
  | zero => cases h
  | succ n =>
      rw [invoke_class] at h
      cases hr : c.initializer? with
      | none =>
          rw [hr] at h
          cases h
          rfl
      | some r =>
          rw [hr] at h
          obtain ⟨_, _, -, h⟩ := Run.exists_of_bind_done h
          cases h
          rfl

theorem exists_of_runRoutine (hr : r.initializes) (h : runRoutine n r vs m = .done v m') :
    ∃ k flow m₁, n = k + 1 ∧ executeAll k r.declaration.body (m.enterCall r vs) = .done flow m₁ ∧
      v = (m₁.scopes.getAt? r.scope 0 thisName).getD .nil := by
  cases n with
  | zero => cases h
  | succ k =>
      rw [runRoutine_succ] at h
      obtain ⟨flow, m₁, hscope, hresult⟩ := Run.exists_of_bind_done h
      obtain ⟨m₂, hbody, rfl⟩ := Run.exists_of_inScope_done hscope
      unfold Run.result at hresult
      rw [if_pos hr] at hresult
      cases hresult
      exact ⟨k, flow, m₂, rfl, hbody, rfl⟩

/-- The values that a task is given. -/
def Task.given : Task → List Value
  | .callValue callee _ vs | .invoke callee vs => callee :: vs
  | .runRoutine _ vs => vs
  | .assign _ _ v => [v]
  | .bindMethod _ receiver => [receiver]
  | _ => []

namespace Discipline

variable {D : Discipline} {h : Heap}

theorem AllowsTask.given {task : Task} (htask : D.AllowsTask h task) :
    ∀ v ∈ task.given, D.Allows h v := by
  cases task with
  | callValue callee _ vs | invoke callee vs => exact List.forall_mem_cons.mpr htask
  | runRoutine r vs => exact htask.2
  | assign _ _ v => exact List.forall_mem_singleton.mpr htask.2
  | bindMethod r receiver => exact List.forall_mem_singleton.mpr htask.2
  | _ => exact List.forall_mem_nil _

end Discipline

namespace Session

variable {clock : Nat → Float} {history : List (Session × Step)} {s : Session} {step : Step}
  {i : Identity}

/-- The value was there before there were more instances than on this machine: it was stored there,
or given to a moment or handed on by one. -/
inductive Existed (history : List (Session × Step)) (m : Machine) : Value → Prop
  | bound {scope : ScopeId} {name : String} {v : Value} (hv : m.scopes.own? scope name = some v) :
      Existed history m v
  | field {j : Identity} {fields : Bindings Value} {name : String} {v : Value}
      (hfields : m.instances[j]? = some fields) (hv : fields.find? name = some v) :
      Existed history m v
  | given {x : Moment} {v : Value} (hx : Occurs history x) (hv : v ∈ x.task.given)
      (hm : x.machine.instances.size ≤ m.instances.size) : Existed history m v
  | handed {x : Moment} {vs : List Value} {m' : Machine} {v : Value} (hx : Occurs history x)
      (hdone : x.ending = .done vs m') (hv : v ∈ vs) (hm : m'.instances.size ≤ m.instances.size) :
      Existed history m v

/-- Each instance that is met was made before. -/
theorem Existed.lt_size (h : Reached clock history s) {x : Moment}
    (hx : Occurs ((s, step) :: history) x)
    (hv : Existed ((s, step) :: history) x.machine (.instance_ i c)) :
    i < x.machine.instances.size := by
  have hstores := (h.admits_receivers hx).keeps.stores
  cases hv with
  | bound hv => exact (hstores.bound _ _ _ trivial hv).2.1
  | field hfields hv => exact (hstores.fields _ _ _ _ trivial hfields hv).2.1
  | @given y _ hy hv hm =>
      have hgiven : (Discipline.receivers _).Allows y.machine.heap (.instance_ i c) :=
        Discipline.AllowsTask.given (h.admits_receivers hy).task _ hv
      exact Nat.lt_of_lt_of_le hgiven.2.1 hm
  | @handed y vs m' _ hy hdone hv hm =>
      have hends := (h.admits_receivers hy).ends
      rw [Discipline.Ends, hdone] at hends
      exact Nat.lt_of_lt_of_le (hends.2.2 _ hv).2.1 hm

theorem Reached.isSome_this (h : Reached clock history s) (hr : r.initializes) {flow : Flow}
    (hx : Occurs ((s, step) :: history) ⟨n + 1, .runRoutine r vs, m⟩)
    (hbody : executeAll n r.declaration.body (m.enterCall r vs) = .done flow m') :
    (m'.scopes.own? r.scope thisName).isSome := by
  have hthis := (h.admits_receivers hx).task.1.function hr
  have henter : m.scopes.Extends (m.enterCall r vs).scopes := Setting.extends_enterCall m r vs
  have hresumes := ((allResume n).executeAll r.declaration.body).of_done hbody
  exact (henter.trans hresumes.scopes).own _ _ hthis

/-- An initializer gives the instance that it was obtained from. -/
theorem Reached.value_of_initializer (h : Reached clock history s)
    (hr : Obtains ((s, step) :: history) r i c)
    (hname : r.declaration.name.lexeme = initializerName)
    (hx : Occurs ((s, step) :: history) ⟨n, .runRoutine r vs, m⟩)
    (hdone : runRoutine n r vs m = .done v m') : v = .instance_ i c := by
  obtain ⟨k, method, m₀, hbind, rfl⟩ := hr.exists_bind
  obtain ⟨⟨name, hmethod⟩, -⟩ := (h.admits_receivers hbind).task
  have hinit : { method with scope := m₀.scopes.size : Routine }.initializes :=
    hmethod.method.2.mpr (hmethod.method.1.symm.trans hname)
  obtain ⟨k, flow, m₁, rfl, hbody, rfl⟩ := exists_of_runRoutine hinit hdone
  have hthis := h.isSome_this hinit hx hbody
  obtain ⟨v, hv⟩ := Option.isSome_iff_exists.mp hthis
  have hends := (h.admits_receivers (hx.part .body)).ends
  rw [Discipline.ends_executeAll_iff, hbody] at hends
  obtain rfl := (h.makeApart.cons h step).eq_of_own? hends.2.1.stores.heap hbind hv
  exact congrArg (fun found => found.getD .nil) hv

/-- In a session every evaluation of the receiver, by a method that was obtained from an instance or
by a function declared in the course of a call of it, gives that instance. A class that is called
gives a new instance, if anything, and an initializer the instance that it was obtained from, since
the receiver is never missing when an initializer is done. -/
theorem receivers_stay (h : Reached clock history s) (step : Step) :
    (∀ r i c n node keyword m, Obtains ((s, step) :: history) r i c →
      Serves ((s, step) :: history) r ⟨n + 1, .evaluate (.this node keyword), m⟩ →
        Lox.evaluate (n + 1) (.this node keyword) m = .done (.instance_ i c) m) ∧
    (∀ n c paren vs m v m',
      Occurs ((s, step) :: history) ⟨n, .callValue (.class_ c) paren vs, m⟩ →
        callValue n (.class_ c) paren vs m = .done v m' →
          v = .instance_ m.instances.size c ∧
            ∀ w, Existed ((s, step) :: history) m w → w ≠ v) ∧
    (∀ f i c n paren vs m v m', Obtains ((s, step) :: history) (Closure.routine f) i c →
      f.routine.declaration.name.lexeme = initializerName →
        Occurs ((s, step) :: history) ⟨n, .callValue (.function f) paren vs, m⟩ →
          callValue n (.function f) paren vs m = .done v m' → v = .instance_ i c) ∧
    ∀ r n vs m flow m', Occurs ((s, step) :: history) ⟨n + 1, .runRoutine r vs, m⟩ →
      r.initializes → executeAll n r.declaration.body (m.enterCall r vs) = .done flow m' →
        (m'.scopes.getAt? r.scope 0 thisName).isSome := by
  refine ⟨?_, ?_, ?_, ?_⟩
  · intro r i c n node keyword m hr hx
    exact h.evaluate_this hr hx
  · intro n c paren vs m v m' hx hdone
    obtain ⟨k, m₁, rfl, -, hinvoke⟩ := exists_of_callValue hdone
    obtain rfl := value_of_invoke_class hinvoke
    refine ⟨rfl, ?_⟩
    rintro w hw rfl
    exact Nat.lt_irrefl _ (Existed.lt_size h hx hw)
  · intro f i c n paren vs m v m' hr hname hx hdone
    obtain ⟨k, m₁, rfl, hcheck, hinvoke⟩ := exists_of_callValue hdone
    cases k with
    | zero => cases hinvoke
    | succ k =>
        have hrun : runRoutine k f.routine vs m.countCall = .done v m₁ := hinvoke
        exact h.value_of_initializer hr hname ((hx.part (.invoke hcheck)).part .function) hrun
  · intro r n vs m flow m' hx hinit hbody
    exact h.isSome_this hinit hx hbody

theorem receivers_stay_of_call :
    ∃ r c n node keyword m,
      Obtains [(.new fun _ => 0,
        .run 20 "\x7bclass A\x7bm()\x7breturn this;\x7d\x7dA().m();\x7d")] r 0 c ∧
      Serves [(.new fun _ => 0,
        .run 20 "\x7bclass A\x7bm()\x7breturn this;\x7d\x7dA().m();\x7d")] r
        ⟨n + 1, .evaluate (.this node keyword), m⟩ ∧
      Lox.evaluate (n + 1) (.this node keyword) m = .done (.instance_ 0 c) m := by
  let name (lexeme : String) : Token := ⟨.identifier, lexeme, 1⟩
  let paren : Token := ⟨.symbol .rightParen, ")", 1⟩
  let this : Token := ⟨.keyword .this_, "this", 1⟩
  let answer (node : NodeId) : Stmt NodeId :=
    .ret ⟨.keyword .return_, "return", 1⟩ (some (.this node this))
  let class_ : Stmt NodeId := .class_ (name "A") [⟨name "m", [], [answer 0]⟩]
  let call : Expr NodeId :=
    .call (.get (.call (.var 1 (name "A")) paren []) (name "m")) paren []
  let program : List (Stmt NodeId) := [.block [class_, .expression call]]
  let hops : Hops := ((∅ : Hops).insert 0 1).insert 1 0
  let s' : Session := ⟨{ Machine.new (fun _ => 0) with hops }, 2⟩
  have hunit : (Session.new fun _ => 0).unit?
      "\x7bclass A\x7bm()\x7breturn this;\x7d\x7dA().m();\x7d" = some (program, s') := by
    refine unit?_eq_some_iff.mpr ⟨[.block [.class_ (name "A") [⟨name "m", [],
        [.ret ⟨.keyword .return_, "return", 1⟩ (some (.this () this))]⟩],
      .expression (.call (.get (.call (.var () (name "A")) paren []) (name "m")) paren [])]],
      ?_, rfl, rfl, rfl⟩
    cbv
  have hoccurs : ∀ x, Within ⟨20, .executeAll program, s'.machine⟩ x →
      Occurs [(.new fun _ => 0,
        .run 20 "\x7bclass A\x7bm()\x7breturn this;\x7d\x7dA().m();\x7d")] x := by
    intro x hx
    refine ⟨_, _, List.mem_singleton_self _, ⟨20, .executeAll program, s'.machine⟩, ?_, hx⟩
    rw [start?, hunit]
    rfl
  let methods : Bindings Routine := Bindings.empty.insert "m" ⟨⟨name "m", [], [answer 0]⟩, 1, false⟩
  let m : Machine :=
    { s'.machine.enterBlock with
      scopes := s'.machine.enterBlock.scopes.define 1 "A" (.class_ ⟨0, "A", methods⟩)
      fresh := 1 }
  have hcall : Within ⟨20, .executeAll program, s'.machine⟩ ⟨15, .evaluate call, m⟩ :=
    .head .first (.head .block (.head (.others rfl) (.head .first (.single .expression))))
  have hget := hoccurs _ (hcall.tail .callee)
  have hobtains := Obtains.get hget rfl rfl rfl
  have hrun := hoccurs _ ((((hcall.tail (.call rfl rfl)).tail (.invoke rfl)).tail .function))
  have hserves := ((((Serves.call hrun).part .body (by simp)).part .first (by simp)).part .answer
    (by simp))
  exact ⟨_, _, _, _, _, _, hobtains, hserves,
    (receivers_stay .new _).1 _ _ _ _ _ _ _ hobtains hserves⟩

end Session

end Lox
