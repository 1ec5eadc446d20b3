import Lox.Evaluation
import Lox.Proofs.Scoping.Sites
import Mathlib.Logic.Relation

/-!
What happens in the course of a run.

A run of an expression or a statement is made up of runs of its parts. A moment is the beginning of
one of them: a task, the machine it starts on, and the fuel that is left. `Part` follows the
equations of `evaluate` and `execute`: it leads from a moment to those that it comes to directly,
each of them after the parts before it are done.
-/

namespace Lox

inductive Task
  | evaluate (e : Expr NodeId)
  | evaluateAll (es : List (Expr NodeId))
  | callValue (callee : Value) (paren : Token) (arguments : List Value)
  | invoke (callee : Value) (arguments : List Value)
  | runRoutine (routine : Routine) (arguments : List Value)
  | execute (s : Stmt NodeId)
  | executeAll (ss : List (Stmt NodeId))
  | lookUp (node : NodeId) (name : Token)
  | assign (node : NodeId) (name : Token) (value : Value)
  | bindMethod (routine : Routine) (receiver : Value)

structure Moment where
  fuel : Nat
  task : Task
  machine : Machine

namespace Scopes

/-- Binds parameters to arguments in `s`, in order. -/
def defineAll (ss : Scopes Value) (s : ScopeId) : List Token → List Value → Scopes Value
  | param :: params, argument :: arguments =>
      (ss.define s param.lexeme argument).defineAll s params arguments
  | _, _ => ss

end Scopes

namespace Machine

/-- In a new scope inside the current one. -/
def enterBlock (m : Machine) : Machine :=
  { m with scopes := m.scopes.push (some m.current), current := m.scopes.size }

/-- In a new scope that holds the arguments of a call. -/
def enterCall (m : Machine) (routine : Routine) (arguments : List Value) : Machine :=
  { m with
    scopes := (m.scopes.push (some routine.scope)).defineAll m.scopes.size
      routine.declaration.params arguments
    current := m.scopes.size }

/-- With a new scope that holds the receiver of a method, in which the method is a function. -/
def bind (m : Machine) (routine : Routine) (receiver : Value) : Machine :=
  { m with
    scopes := (m.scopes.push (some routine.scope)).define m.scopes.size Resolution.thisName receiver
    fresh := m.fresh + 1 }

def addInstance (m : Machine) : Machine := { m with instances := m.instances.push .empty }

def countCall (m : Machine) : Machine := { m with depth := m.depth + 1 }

end Machine

theorem Run.defineAll_apply (scope : ScopeId) (params : List Token) (arguments : List Value)
    (m : Machine) :
    Run.defineAll scope params arguments m =
      .done () { m with scopes := m.scopes.defineAll scope params arguments } := by
  induction params generalizing arguments m with
  | nil => rfl
  | cons param params ih =>
      cases arguments with
      | nil => rfl
      | cons argument arguments => exact ih arguments _

theorem Run.bindMethod_apply (routine : Routine) (receiver : Value) (m : Machine) :
    Run.bindMethod routine receiver m =
      .done ⟨m.fresh, { routine with scope := m.scopes.size }⟩ (m.bind routine receiver) := rfl

theorem execute_block (n : Nat) (body : List (Stmt NodeId)) (m : Machine) :
    execute (n + 1) (.block body) m =
      Run.inScope m.scopes.size (executeAll n body)
        { m with scopes := m.scopes.push (some m.current) } := rfl

theorem runRoutine_succ (n : Nat) (r : Routine) (vs : List Value) (m : Machine) :
    runRoutine (n + 1) r vs m =
      (Run.inScope m.scopes.size (executeAll n r.declaration.body) >>= Run.result r)
        { m with
          scopes := (m.scopes.push (some r.scope)).defineAll m.scopes.size r.declaration.params
            vs } := by
  simp only [runRoutine, Run.bind_apply, Run.newScope, Run.defineAll_apply]

theorem invoke_class (n : Nat) (c : Class) (vs : List Value) (m : Machine) :
    invoke (n + 1) (.class_ c) vs m =
      match c.initializer? with
      | none => .done (.instance_ m.instances.size c) m.addInstance
      | some r =>
          (runRoutine n { r with scope := m.scopes.size } vs >>= fun _ =>
            pure (.instance_ m.instances.size c))
          (m.addInstance.bind r (.instance_ m.instances.size c)) := by
  simp only [invoke, Run.bind_apply, Run.newInstance]
  cases c.initializer? with
  | none => rfl
  | some r => rfl

theorem Run.arity?_of_checkCall {callee : Value} {count : Nat} {paren : Token} {m m' : Machine}
    (h : Run.checkCall callee count paren m = .done () m') :
    callee.arity? = some count ∧ m' = m := by
  unfold Run.checkCall at h
  split at h
  · cases h
  · rename_i arity harity
    split at h
    · cases h
    · rename_i hcount
      split at h
      · cases h
      · cases h
        exact ⟨by rw [harity, Decidable.not_not.mp hcount], rfl⟩

theorem Run.machine_of_checkCall {callee : Value} {count : Nat} {paren : Token} {m m' : Machine}
    {fault : Diagnostic} (h : Run.checkCall callee count paren m = .failed fault m') : m' = m := by
  unfold Run.checkCall at h
  split at h
  · cases h
    rfl
  · split at h
    · cases h
      rfl
    · split at h
      · cases h
        rfl
      · cases h

/-- The first moment comes directly to the second. -/
inductive Part : Moment → Moment → Prop
  | grouping {n : Nat} {m : Machine} {e : Expr NodeId} :
      Part ⟨n + 1, .evaluate (.grouping e), m⟩ ⟨n, .evaluate e, m⟩
  | operand {n : Nat} {m : Machine} {operator : Token} {e : Expr NodeId} :
      Part ⟨n + 1, .evaluate (.unary operator e), m⟩ ⟨n, .evaluate e, m⟩
  | left {n : Nat} {m : Machine} {operator : Token} {a b : Expr NodeId} :
      Part ⟨n + 1, .evaluate (.binary a operator b), m⟩ ⟨n, .evaluate a, m⟩
  | right {n : Nat} {m m' : Machine} {operator : Token} {a b : Expr NodeId} {v : Value}
      (h : evaluate n a m = .done v m') :
      Part ⟨n + 1, .evaluate (.binary a operator b), m⟩ ⟨n, .evaluate b, m'⟩
  | deciding {n : Nat} {m : Machine} {operator : Token} {a b : Expr NodeId} :
      Part ⟨n + 1, .evaluate (.logical a operator b), m⟩ ⟨n, .evaluate a, m⟩
  | undecided {n : Nat} {m m' : Machine} {operator : Token} {a b : Expr NodeId} {v : Value}
      (h : evaluate n a m = .done v m') (hv : Operator.decides operator.kind v = false) :
      Part ⟨n + 1, .evaluate (.logical a operator b), m⟩ ⟨n, .evaluate b, m'⟩
  | var {n : Nat} {m : Machine} {node : NodeId} {name : Token} :
      Part ⟨n + 1, .evaluate (.var node name), m⟩ ⟨n, .lookUp node name, m⟩
  | this {n : Nat} {m : Machine} {node : NodeId} {keyword : Token} :
      Part ⟨n + 1, .evaluate (.this node keyword), m⟩ ⟨n, .lookUp node keyword, m⟩
  | assigned {n : Nat} {m : Machine} {node : NodeId} {name : Token} {e : Expr NodeId} :
      Part ⟨n + 1, .evaluate (.assign node name e), m⟩ ⟨n, .evaluate e, m⟩
  | assign {n : Nat} {m m' : Machine} {node : NodeId} {name : Token} {e : Expr NodeId} {v : Value}
      (h : evaluate n e m = .done v m') :
      Part ⟨n + 1, .evaluate (.assign node name e), m⟩ ⟨n, .assign node name v, m'⟩
  | callee {n : Nat} {m : Machine} {callee : Expr NodeId} {paren : Token}
      {es : List (Expr NodeId)} :
      Part ⟨n + 1, .evaluate (.call callee paren es), m⟩ ⟨n, .evaluate callee, m⟩
  | arguments {n : Nat} {m m' : Machine} {callee : Expr NodeId} {paren : Token}
      {es : List (Expr NodeId)} {v : Value} (h : evaluate n callee m = .done v m') :
      Part ⟨n + 1, .evaluate (.call callee paren es), m⟩ ⟨n, .evaluateAll es, m'⟩
  | call {n : Nat} {m m' m'' : Machine} {callee : Expr NodeId} {paren : Token}
      {es : List (Expr NodeId)} {v : Value} {vs : List Value}
      (h : evaluate n callee m = .done v m') (hs : evaluateAll n es m' = .done vs m'') :
      Part ⟨n + 1, .evaluate (.call callee paren es), m⟩ ⟨n, .callValue v paren vs, m''⟩
  | object {n : Nat} {m : Machine} {object : Expr NodeId} {name : Token} :
      Part ⟨n + 1, .evaluate (.get object name), m⟩ ⟨n, .evaluate object, m⟩
  | method {n : Nat} {m m' : Machine} {object : Expr NodeId} {name : Token} {inst : Identity}
      {c : Class} {routine : Routine} (h : evaluate n object m = .done (.instance_ inst c) m')
      (hfield : (m'.instances[inst]?).bind (fun fields => fields.find? name.lexeme) = none)
      (hmethod : c.methods.find? name.lexeme = some routine) :
      Part ⟨n + 1, .evaluate (.get object name), m⟩
        ⟨n, .bindMethod routine (.instance_ inst c), m'⟩
  | holder {n : Nat} {m : Machine} {object value : Expr NodeId} {name : Token} :
      Part ⟨n + 1, .evaluate (.set object name value), m⟩ ⟨n, .evaluate object, m⟩
  | held {n : Nat} {m m' : Machine} {object value : Expr NodeId} {name : Token} {inst : Identity}
      {c : Class} (h : evaluate n object m = .done (.instance_ inst c) m') :
      Part ⟨n + 1, .evaluate (.set object name value), m⟩ ⟨n, .evaluate value, m'⟩
  | firstOf {n : Nat} {m : Machine} {e : Expr NodeId} {es : List (Expr NodeId)} :
      Part ⟨n + 1, .evaluateAll (e :: es), m⟩ ⟨n, .evaluate e, m⟩
  | othersOf {n : Nat} {m m' : Machine} {e : Expr NodeId} {es : List (Expr NodeId)} {v : Value}
      (h : evaluate n e m = .done v m') :
      Part ⟨n + 1, .evaluateAll (e :: es), m⟩ ⟨n, .evaluateAll es, m'⟩
  | invoke {n : Nat} {m : Machine} {callee : Value} {paren : Token} {vs : List Value}
      (h : Run.checkCall callee vs.length paren m = .done () m) :
      Part ⟨n + 1, .callValue callee paren vs, m⟩ ⟨n, .invoke callee vs, m.countCall⟩
  | function {n : Nat} {m : Machine} {f : Closure} {vs : List Value} :
      Part ⟨n + 1, .invoke (.function f) vs, m⟩ ⟨n, .runRoutine f.routine vs, m⟩
  | receiver {n : Nat} {m : Machine} {c : Class} {routine : Routine} {vs : List Value}
      (h : c.initializer? = some routine) :
      Part ⟨n + 1, .invoke (.class_ c) vs, m⟩
        ⟨n, .bindMethod routine (.instance_ m.instances.size c), m.addInstance⟩
  | initializer {n : Nat} {m : Machine} {c : Class} {routine : Routine} {vs : List Value}
      (h : c.initializer? = some routine) :
      Part ⟨n + 1, .invoke (.class_ c) vs, m⟩
        ⟨n, .runRoutine { routine with scope := m.scopes.size } vs,
          m.addInstance.bind routine (.instance_ m.instances.size c)⟩
  | body {n : Nat} {m : Machine} {routine : Routine} {vs : List Value} :
      Part ⟨n + 1, .runRoutine routine vs, m⟩
        ⟨n, .executeAll routine.declaration.body, m.enterCall routine vs⟩
  | expression {n : Nat} {m : Machine} {e : Expr NodeId} :
      Part ⟨n + 1, .execute (.expression e), m⟩ ⟨n, .evaluate e, m⟩
  | print {n : Nat} {m : Machine} {e : Expr NodeId} :
      Part ⟨n + 1, .execute (.print e), m⟩ ⟨n, .evaluate e, m⟩
  | initial {n : Nat} {m : Machine} {name : Token} {e : Expr NodeId} :
      Part ⟨n + 1, .execute (.var name (some e)), m⟩ ⟨n, .evaluate e, m⟩
  | block {n : Nat} {m : Machine} {ss : List (Stmt NodeId)} :
      Part ⟨n + 1, .execute (.block ss), m⟩ ⟨n, .executeAll ss, m.enterBlock⟩
  | condition {n : Nat} {m : Machine} {e : Expr NodeId} {s : Stmt NodeId}
      {other : Option (Stmt NodeId)} :
      Part ⟨n + 1, .execute (.branch e s other), m⟩ ⟨n, .evaluate e, m⟩
  | consequent {n : Nat} {m m' : Machine} {e : Expr NodeId} {s : Stmt NodeId}
      {other : Option (Stmt NodeId)} {v : Value} (h : evaluate n e m = .done v m')
      (hv : v.truthy) : Part ⟨n + 1, .execute (.branch e s other), m⟩ ⟨n, .execute s, m'⟩
  | alternative {n : Nat} {m m' : Machine} {e : Expr NodeId} {s other : Stmt NodeId} {v : Value}
      (h : evaluate n e m = .done v m') (hv : ¬v.truthy) :
      Part ⟨n + 1, .execute (.branch e s (some other)), m⟩ ⟨n, .execute other, m'⟩
  | loopCondition {n : Nat} {m : Machine} {e : Expr NodeId} {s : Stmt NodeId} :
      Part ⟨n + 1, .execute (.loop e s), m⟩ ⟨n, .evaluate e, m⟩
  | loopBody {n : Nat} {m m' : Machine} {e : Expr NodeId} {s : Stmt NodeId} {v : Value}
      (h : evaluate n e m = .done v m') (hv : v.truthy) :
      Part ⟨n + 1, .execute (.loop e s), m⟩ ⟨n, .execute s, m'⟩
  | loopAgain {n : Nat} {m m' m'' : Machine} {e : Expr NodeId} {s : Stmt NodeId} {v : Value}
      (h : evaluate n e m = .done v m') (hv : v.truthy)
      (hs : execute n s m' = .done .normal m'') :
      Part ⟨n + 1, .execute (.loop e s), m⟩ ⟨n, .execute (.loop e s), m''⟩
  | answer {n : Nat} {m : Machine} {keyword : Token} {e : Expr NodeId} :
      Part ⟨n + 1, .execute (.ret keyword (some e)), m⟩ ⟨n, .evaluate e, m⟩
  | first {n : Nat} {m : Machine} {s : Stmt NodeId} {ss : List (Stmt NodeId)} :
      Part ⟨n + 1, .executeAll (s :: ss), m⟩ ⟨n, .execute s, m⟩
  | others {n : Nat} {m m' : Machine} {s : Stmt NodeId} {ss : List (Stmt NodeId)}
      (h : execute n s m = .done .normal m') :
      Part ⟨n + 1, .executeAll (s :: ss), m⟩ ⟨n, .executeAll ss, m'⟩

/-- The first moment comes to the second, which may be the same. -/
abbrev Within : Moment → Moment → Prop := Relation.ReflTransGen Part

/-- The kind of scope that is made at a moment. Its identity is the number of scopes until then. -/
def Moment.makes? (x : Moment) : Option FrameKind :=
  match x.task with
  | .execute (.block _) => if x.fuel = 0 then none else some .block
  | .runRoutine _ _ => if x.fuel = 0 then none else some .call
  | .bindMethod _ _ => some .receiver
  | _ => none

theorem Part.fuel_lt {x y : Moment} (h : Part x y) : y.fuel < x.fuel := by
  cases h <;> exact Nat.lt_succ_self _

end Lox
