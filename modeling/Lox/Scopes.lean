import Lox.Bindings

/-!
Scopes: the places in which a running program keeps its variables.

Every scope but the outermost ones has an enclosing scope, which was made before it; following the
enclosing scopes therefore comes to an end. Scopes are shared: all that runs inside a scope sees
what is written to it. A name is found along the chain of enclosing scopes, or in the one scope
that lies a given number of steps out.
-/

namespace Lox

abbrev ScopeId := Nat

structure Scope (α : Type) where
  enclosing : Option ScopeId
  bindings : Bindings α

/-- All scopes, in the order in which they were made. -/
structure Scopes (α : Type) where
  scopes : Array (Scope α)
  enclosing_lt : ∀ (s : ScopeId) (h : s < scopes.size) (outer : ScopeId),
    scopes[s].enclosing = some outer → outer < s

namespace Scopes

variable {α : Type}

def empty : Scopes α := ⟨#[], fun _ h => absurd h (Nat.not_lt_zero _)⟩

def size (ss : Scopes α) : Nat := ss.scopes.size

/-- The scope around `s`. -/
def enclosing? (ss : Scopes α) (s : ScopeId) : Option ScopeId :=
  if h : s < ss.scopes.size then ss.scopes[s].enclosing else none

theorem enclosing?_lt {ss : Scopes α} {s outer : ScopeId} (h : ss.enclosing? s = some outer) :
    outer < s := by
  unfold enclosing? at h
  split at h
  · exact ss.enclosing_lt s _ outer h
  · contradiction

/-- The value bound in `s` itself. -/
def own? (ss : Scopes α) (s : ScopeId) (name : String) : Option α :=
  if h : s < ss.scopes.size then ss.scopes[s].bindings.find? name else none

/-- The names bound in `s` itself. -/
def names (ss : Scopes α) (s : ScopeId) : List String :=
  if h : s < ss.scopes.size then ss.scopes[s].bindings.names else []

/-- The names bound in `s` itself, in the order of their characters. -/
def sortedNames (ss : Scopes α) (s : ScopeId) : List String :=
  (ss.names s).mergeSort fun a b => a ≤ b

/-- A new scope, inside `outer` if that is one of the scopes. Its identity is the old `size`. -/
def push (ss : Scopes α) (outer : Option ScopeId) : Scopes α where
  scopes := ss.scopes.push ⟨outer.filter (· < ss.scopes.size), .empty⟩
  enclosing_lt := by
    intro s h outer' houter
    have hsize : s < ss.scopes.size + 1 := by simpa using h
    rw [Array.getElem_push] at houter
    split at houter
    · exact ss.enclosing_lt s _ outer' houter
    · rename_i hnew
      have hs : s = ss.scopes.size := Nat.le_antisymm (Nat.lt_succ_iff.1 hsize) (Nat.not_lt.1 hnew)
      simpa [hs] using (Option.filter_eq_some_iff.1 houter).2

/-- Binds `name` in `s` itself. -/
def define (ss : Scopes α) (s : ScopeId) (name : String) (value : α) : Scopes α where
  scopes := ss.scopes.modify s fun scope =>
    { scope with bindings := scope.bindings.insert name value }
  enclosing_lt := by
    intro s' h outer houter
    rw [Array.size_modify] at h
    refine ss.enclosing_lt s' h outer ?_
    rw [← houter, Array.getElem_modify]
    split <;> simp_all

/-- The value that `name` has in `s`: its nearest binding. -/
def get? (ss : Scopes α) (s : ScopeId) (name : String) : Option α :=
  match ss.own? s name with
  | some value => some value
  | none =>
      match h : ss.enclosing? s with
      | none => none
      | some outer =>
          have := enclosing?_lt h
          ss.get? outer name
termination_by s

/-- The nearest scope from `s` outwards that binds `name`. -/
def owner? (ss : Scopes α) (s : ScopeId) (name : String) : Option ScopeId :=
  if (ss.own? s name).isSome then some s
  else
    match h : ss.enclosing? s with
    | none => none
    | some outer =>
        have := enclosing?_lt h
        ss.owner? outer name
termination_by s

/-- Gives the nearest binding of `name` a new value, if there is one. -/
def assign? (ss : Scopes α) (s : ScopeId) (name : String) (value : α) : Option (Scopes α) :=
  match ss.own? s name with
  | some _ => some (ss.define s name value)
  | none =>
      match h : ss.enclosing? s with
      | none => none
      | some outer =>
          have := enclosing?_lt h
          ss.assign? outer name value
termination_by s

theorem get?_eq_or (ss : Scopes α) (s : ScopeId) (name : String) :
    ss.get? s name =
      (ss.own? s name).or ((ss.enclosing? s).bind fun outer => ss.get? outer name) := by
  rw [get?]
  split
  · rename_i hown
    rw [hown, Option.some_or]
  · rename_i hown
    rw [hown, Option.none_or]
    split <;> simp_all

theorem owner?_eq_ite (ss : Scopes α) (s : ScopeId) (name : String) :
    ss.owner? s name =
      if (ss.own? s name).isSome then some s
      else (ss.enclosing? s).bind fun outer => ss.owner? outer name := by
  rw [owner?]
  split
  · rfl
  · split <;> simp_all

theorem assign?_eq_ite (ss : Scopes α) (s : ScopeId) (name : String) (value : α) :
    ss.assign? s name value =
      if (ss.own? s name).isSome then some (ss.define s name value)
      else (ss.enclosing? s).bind fun outer => ss.assign? outer name value := by
  rw [assign?]
  split
  · rename_i hown
    rw [hown]
    rfl
  · rename_i hown
    simp only [hown, Option.isSome_none, Bool.false_eq_true, if_false]
    split <;> simp_all

/-- The scope that lies `distance` steps out from `s`. -/
def ancestor? (ss : Scopes α) (s : ScopeId) : Nat → Option ScopeId
  | 0 => some s
  | distance + 1 => (ss.enclosing? s).bind fun outer => ss.ancestor? outer distance

/-- The value bound in the scope `distance` steps out, and in that scope only. -/
def getAt? (ss : Scopes α) (s : ScopeId) (distance : Nat) (name : String) : Option α :=
  (ss.ancestor? s distance).bind fun scope => ss.own? scope name

/-- Binds `name` in the scope `distance` steps out, if there is such a scope. -/
def assignAt? (ss : Scopes α) (s : ScopeId) (distance : Nat) (name : String) (value : α) :
    Option (Scopes α) :=
  (ss.ancestor? s distance).map fun scope => ss.define scope name value

end Scopes

end Lox
