import Lox.Proofs.Chains.Owners

/-!
What is done with scopes.

Scopes are made, alone or inside others, and names are bound and given new values in them. Whatever
was done before, a name that is read along the chain, one that is written along the chain and one
that is reached over links is the same variable; and a write is seen through all chains that lead to
its variable, and through no others. A running program assigns by these operations.
-/

namespace Lox.Scopes

variable {α : Type} {ss ss' : Scopes α} {s scope : ScopeId} {name : String} {value : α}

/-- What is done with scopes. They are numbered in the order in which they are made. -/
inductive Operation (α : Type)
  | new
  | child (outer : ScopeId)
  | define (s : ScopeId) (name : String) (value : α)
  | assign (s : ScopeId) (name : String) (value : α)
  | assignAt (s : ScopeId) (distance : Nat) (name : String) (value : α)

/-- The scopes after the operation, unless it fails. -/
def perform? (ss : Scopes α) : Operation α → Option (Scopes α)
  | .new => some (ss.push none)
  | .child outer => some (ss.push (some outer))
  | .define s name value => some (ss.define s name value)
  | .assign s name value => ss.assign? s name value
  | .assignAt s distance name value => ss.assignAt? s distance name value

/-- The scopes after operations, one after the other. One that fails is passed over. -/
def after (ss : Scopes α) : List (Operation α) → Scopes α
  | [] => ss
  | operation :: later => ((ss.perform? operation).getD ss).after later

end Lox.Scopes

namespace Lox

section

variable (node : NodeId) (name : Token) (value : Value) (m : Machine)

/-- The operation on scopes by which a machine assigns to the variable that a node names. -/
def Machine.assignment : Scopes.Operation Value :=
  match m.hops[node]? with
  | some distance => .assignAt m.current distance name.lexeme value
  | none => .assign globalScope name.lexeme value

theorem Run.assign_eq_perform? :
    Run.assign node name value m =
      match m.scopes.perform? (m.assignment node name value) with
      | some scopes => .done () { m with scopes }
      | none => .failed (.undefined name) m := by
  unfold Run.assign Machine.assignment
  cases hhop : m.hops[node]? with
  | some distance =>
      simp only [Scopes.perform?, Scopes.assignAt?]
      cases m.scopes.ancestor? m.current distance <;> rfl
  | none =>
      simp only [Scopes.perform?, Scopes.assign?_eq_map_owner?]
      cases m.scopes.owner? globalScope name.lexeme <;> rfl

end

/-- An assignment of a running program that fails leaves the machine as it was. -/
theorem Run.unchanged_of_assign_failed {node : NodeId} {name : Token} {value : Value}
    {m m' : Machine} {fault : Diagnostic} (h : Run.assign node name value m = .failed fault m') :
    fault = .undefined name ∧ m' = m := by
  rw [assign_eq_perform?] at h
  split at h
  · cases h
  · cases h
    exact ⟨rfl, rfl⟩

end Lox

namespace Lox.Scopes

variable {α : Type} {ss ss' : Scopes α} {s scope : ScopeId} {name : String} {value : α}

/-- The ways to find `name` from `s` find the same. -/
structure ReadsAgree (ss : Scopes α) (s : ScopeId) (name : String) : Prop where
  /-- The owner is the first scope of the chain that binds the name. -/
  owner : ss.owner? s name = (ss.outwards s).find? fun scope => name ∈ ss.names scope
  value : ss.get? s name = (ss.owner? s name).bind fun owner => ss.own? owner name
  hops : ∀ value, ss.get? s name = some value ↔
    ∃ distance, ss.getAt? s distance name = some value ∧
      ∀ nearer < distance, ss.getAt? s nearer name = none
  absent : ss.get? s name = none ↔ ss.owner? s name = none

theorem readsAgree (ss : Scopes α) (s : ScopeId) (name : String) : ss.ReadsAgree s name where
  owner := owner?_eq_find? ss s name
  value := get?_eq_bind_owner? ss s name
  hops _ := get?_eq_some_iff_getAt?
  absent := get?_eq_none_iff

/-- The later scopes are the earlier ones with one binding of `scope` put in. -/
structure Changes (ss : Scopes α) (scope : ScopeId) (name : String) (value : α)
    (ss' : Scopes α) : Prop where
  size : ss'.size = ss.size
  enclosing : ∀ s, ss'.enclosing? s = ss.enclosing? s
  own : ∀ s other, ss'.own? s other =
    if s = scope ∧ other = name then some value else ss.own? s other

theorem changes_define (h : scope < ss.size) (name : String) (value : α) :
    ss.Changes scope name value (ss.define scope name value) where
  size := size_define
  enclosing := enclosing?_define
  own s other := by
    have hplace : scope = s ∧ name = other ∧ scope < ss.size ↔ s = scope ∧ other = name :=
      ⟨fun ⟨hscope, hname, _⟩ => ⟨hscope.symm, hname.symm⟩,
        fun ⟨hscope, hname⟩ => ⟨hscope.symm, hname.symm, h⟩⟩
    simp only [own?_define, hplace]

/-- The later scopes are those after the variable that `name` is in `s` was given the value. -/
structure Assigns (ss : Scopes α) (s : ScopeId) (name : String) (value : α)
    (ss' : Scopes α) : Prop where
  get : ∀ s' other, ss'.get? s' other =
    if other = name ∧ ss.owner? s' name = ss.owner? s name then some value else ss.get? s' other
  owner : ∀ s' other, ss'.owner? s' other = ss.owner? s' other
  names : ∀ s', ss'.names s' = ss.names s'
  changes : ∃ scope, ss.owner? s name = some scope ∧ ss.Changes scope name value ss'

theorem isSome_assign? (ss : Scopes α) (s : ScopeId) (name : String) (value : α) :
    (ss.assign? s name value).isSome ↔ (ss.get? s name).isSome := by
  rw [assign?_eq_map_owner?, Option.isSome_map, Option.isSome_iff_ne_none,
    Option.isSome_iff_ne_none, ne_eq, ne_eq, get?_eq_none_iff]

theorem assigns_of_assign? (h : ss.assign? s name value = some ss') :
    ss.Assigns s name value ss' := by
  rw [assign?_eq_map_owner?] at h
  obtain ⟨scope, hscope, rfl⟩ := Option.map_eq_some_iff.mp h
  have hmem := mem_names_of_owner? hscope
  exact {
    get := by
      rw [hscope]
      exact get?_define_of_mem hmem value
    owner := owner?_define_of_mem hmem value
    names := names_define_of_mem hmem value
    changes := ⟨scope, hscope, changes_define (lt_size_of_mem_names hmem) name value⟩ }

theorem isSome_assignAt? (ss : Scopes α) (s : ScopeId) (distance : Nat) (name : String)
    (value : α) :
    (ss.assignAt? s distance name value).isSome ↔ (ss.ancestor? s distance).isSome := by
  rw [assignAt?, Option.isSome_map]

theorem changes_of_assignAt? (hs : s < ss.size) {distance : Nat}
    (h : ss.assignAt? s distance name value = some ss') :
    ∃ scope, ss.ancestor? s distance = some scope ∧ ss.Changes scope name value ss' := by
  obtain ⟨scope, hscope, rfl⟩ := Option.map_eq_some_iff.mp h
  exact ⟨scope, hscope, changes_define (Nat.lt_of_le_of_lt (ancestor?_le hscope) hs) name value⟩

/-- The scopes that hops lead to are those of the chain: hops compose, and those that lead nowhere
are those past the outermost scope. -/
structure HopsAgree (ss : Scopes α) (s : ScopeId) : Prop where
  chain : ∀ distance, ss.ancestor? s distance = (ss.outwards s)[distance]?
  add : ∀ m n, ss.ancestor? s (m + n) = (ss.ancestor? s m).bind fun outer => ss.ancestor? outer n
  outermost : ∃ height root, ss.ancestor? s height = some root ∧ ss.enclosing? root = none ∧
    ∀ distance, ss.ancestor? s distance = none ↔ height < distance

theorem hopsAgree (ss : Scopes α) (s : ScopeId) : ss.HopsAgree s where
  chain distance := (getElem?_outwards ss s distance).symm
  add := ancestor?_add ss s
  outermost := exists_outermost ss s

/-- Whatever was done before, the three ways to a variable agree on what is read and on what a write
changes. An operation that fails might as well not have been tried, and an assignment that fails
leaves a running machine as it was. -/
theorem accesses_agree (operations : List (Operation α)) {s : ScopeId}
    (hs : s < (empty.after operations).size) (name : String) (value : α) :
    let ss := empty.after operations
    ss.ReadsAgree s name ∧
      ((ss.assign? s name value).isSome ↔ (ss.get? s name).isSome) ∧
      (∀ ss', ss.assign? s name value = some ss' → ss.Assigns s name value ss') ∧
      (∀ distance, (ss.assignAt? s distance name value).isSome ↔
        (ss.ancestor? s distance).isSome) ∧
      (∀ distance ss', ss.assignAt? s distance name value = some ss' →
        ∃ scope, ss.ancestor? s distance = some scope ∧ ss.Changes scope name value ss') ∧
      (∀ operation later, ss.perform? operation = none →
        ss.after (operation :: later) = ss.after later) ∧
      (∀ (m m' : Machine) node token v fault, Run.assign node token v m = .failed fault m' →
        fault = .undefined token ∧ m' = m) ∧
      ss.HopsAgree s := by
  intro ss
  refine ⟨readsAgree ss s name, isSome_assign? ss s name value, fun _ => assigns_of_assign?,
    fun distance => isSome_assignAt? ss s distance name value,
    fun _ _ => changes_of_assignAt? hs, ?_,
    fun _ _ _ _ _ _ => Run.unchanged_of_assign_failed, hopsAgree ss s⟩
  intro operation later hfails
  rw [after, hfails, Option.getD_none]

/-- A global that two blocks share, and a variable of the same name inside the first block. -/
def siblings : List (Operation Nat) :=
  [.new, .define 0 "a" 1, .child 0, .child 0, .child 1, .define 3 "a" 2]

theorem accesses_agree_of_siblings :
    1 < (empty.after siblings).size ∧ (empty.after siblings).ReadsAgree 1 "a" ∧
      ∃ ss', (empty.after siblings).assign? 1 "a" 7 = some ss' ∧
        ss'.get? 2 "a" = some 7 ∧ ss'.get? 3 "a" = some 2 := by
  have hs : 1 < (empty.after siblings).size := by decide
  obtain ⟨hreads, -, hassigns, -⟩ := accesses_agree siblings hs "a" 7
  have hassign : (empty.after siblings).assign? 1 "a" 7 =
      some ((empty.after siblings).define 0 "a" 7) := by
    cbv
  have hafter := (hassigns _ hassign).get
  refine ⟨hs, hreads, _, hassign, ?_, ?_⟩
  · rw [hafter]
    cbv
  · rw [hafter]
    cbv

end Lox.Scopes
