import Lox.Resolution
import Lox.Sink
import Lox.Value

/-!
The machine that runs programs: its state and its elementary steps.

A step ends in one of three ways. It is done, with a value; it failed, with the fault that the user
is told; or it was cut off because it was allowed too little work. The first two leave a state, so
what was written before a fault stays written.
-/

namespace Lox

structure Machine where
  scopes : Scopes Value
  /-- The fields of each instance, by its identity. -/
  instances : Array (Bindings Value)
  /-- The identity of the function or class that is made next. -/
  fresh : Identity
  hops : Hops
  /-- The scope in which the program is running. -/
  current : ScopeId
  /-- The number of calls in progress. -/
  depth : Nat
  sink : Sink
  /-- The time in seconds at each reading of the clock. -/
  clock : Nat → Float
  readings : Nat

/-- The outermost scope. -/
def globalScope : ScopeId := 0

/-- No call is made while this many are in progress. -/
def callLimit : Nat := 1024

def Machine.new (clock : Nat → Float) : Machine where
  scopes := (Scopes.empty.push none).define globalScope Native.clock.name (.native .clock)
  instances := #[]
  fresh := 0
  hops := ∅
  current := globalScope
  depth := 0
  sink := .endless
  clock
  readings := 0

/-- How a part of a run ends. -/
inductive Ending (α : Type)
  | done (value : α) (m : Machine)
  | failed (fault : Diagnostic) (m : Machine)
  | unfinished

/-- A part of a run. -/
abbrev Run (α : Type) := Machine → Ending α

namespace Run

variable {α β : Type}

@[inline] protected def pure (value : α) : Run α := fun m => .done value m

@[inline] protected def bind (first : Run α) (next : α → Run β) : Run β := fun m =>
  match first m with
  | .done value m => next value m
  | .failed fault m => .failed fault m
  | .unfinished => .unfinished

@[always_inline]
instance : Monad Run where
  pure := Run.pure
  bind := Run.bind

@[simp] theorem pure_apply (value : α) (m : Machine) : (pure value : Run α) m = .done value m := rfl

theorem bind_apply (first : Run α) (next : α → Run β) (m : Machine) :
    (first >>= next) m =
      match first m with
      | .done value m => next value m
      | .failed fault m => .failed fault m
      | .unfinished => .unfinished := rfl

@[inline] def unfinished : Run α := fun _ => .unfinished

@[inline] def fail (fault : Diagnostic) : Run α := fun m => .failed fault m

/-- Fails at a token. -/
@[inline] def failAt (place : Token) (fault : RuntimeFault) : Run α := fail (.runtime place fault)

@[inline] def update (f : Machine → Machine) : Run Unit := fun m => .done () (f m)

/-- The value, or else the fault at `place`. -/
@[inline] def ofExcept (place : Token) : Except RuntimeFault α → Run α
  | .ok value => pure value
  | .error fault => failAt place fault

/-- A new scope inside `outer`. -/
@[inline] def newScope (outer : ScopeId) : Run ScopeId := fun m =>
  .done m.scopes.size { m with scopes := m.scopes.push (some outer) }

/-- A new scope inside the current one. -/
@[inline] def newInnerScope : Run ScopeId := fun m => newScope m.current m

/-- Binds a name in a scope. -/
@[inline] def define (scope : ScopeId) (name : String) (value : Value) : Run Unit :=
  update fun m => { m with scopes := m.scopes.define scope name value }

/-- Runs `body` in another scope. However it ends, the run is back in its scope afterwards. -/
@[inline] def inScope (scope : ScopeId) (body : Run α) : Run α := fun m =>
  let outer := m.current
  match body { m with current := scope } with
  | .done value m => .done value { m with current := outer }
  | .failed fault m => .failed fault { m with current := outer }
  | .unfinished => .unfinished

/-- Counts `body` as a call in progress while it runs, however it ends. -/
@[inline] def counted (body : Run α) : Run α := fun m =>
  match body { m with depth := m.depth + 1 } with
  | .done value m => .done value { m with depth := m.depth - 1 }
  | .failed fault m => .failed fault { m with depth := m.depth - 1 }
  | .unfinished => .unfinished

/-- An identity that nothing else has. -/
@[inline] def newIdentity : Run Identity := fun m => .done m.fresh { m with fresh := m.fresh + 1 }

/-- A new instance without fields. -/
@[inline] def newInstance : Run Identity := fun m =>
  .done m.instances.size { m with instances := m.instances.push .empty }

/-- The value of a field of an instance. -/
@[inline] def field? (inst : Identity) (name : String) : Run (Option Value) := fun m =>
  .done ((m.instances[inst]?).bind fun fields => fields.find? name) m

@[inline] def setField (inst : Identity) (name : String) (value : Value) : Run Unit :=
  update fun m => { m with instances := m.instances.modify inst (·.insert name value) }

/-- The value that the node names: in the scope it was resolved to and nowhere else, or among the
globals if it was not resolved. -/
def lookUp (node : NodeId) (name : Token) : Run Value := fun m =>
  let found :=
    match m.hops[node]? with
    | some distance => m.scopes.getAt? m.current distance name.lexeme
    | none => m.scopes.get? globalScope name.lexeme
  match found with
  | some value => .done value m
  | none => .failed (.undefined name) m

/-- Gives the variable that the node names a new value. The scope that a resolved node names gets
the variable even if it has none of that name; a global must be there already. -/
def assign (node : NodeId) (name : Token) (value : Value) : Run Unit := fun m =>
  let target :=
    match m.hops[node]? with
    | some distance => m.scopes.ancestor? m.current distance
    | none => m.scopes.owner? globalScope name.lexeme
  match target with
  | some scope => .done () { m with scopes := m.scopes.define scope name.lexeme value }
  | none => .failed (.undefined name) m

/-- Writes a piece of text to the sink, or as much of it as there is room for. -/
def write (piece : String) : Run Unit := fun m =>
  let written := { m with sink := m.sink.append (m.sink.takes piece) }
  if m.sink.accepts piece then .done () written else .failed (.output .full) written

/-- Writes pieces of text one after the other. -/
def writeAll : List String → Run Unit
  | [] => pure ()
  | piece :: pieces => do
      write piece
      writeAll pieces

/-- Writes a line that shows the value. -/
def print (value : Value) : Run Unit := writeAll (value.pieces ++ ["\n"])

/-- The next reading of the clock. -/
def readClock : Run Float := fun m =>
  .done (m.clock m.readings) { m with readings := m.readings + 1 }

end Run

end Lox
