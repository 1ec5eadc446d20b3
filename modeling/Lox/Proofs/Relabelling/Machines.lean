import Lox.Proofs.Relabelling.Trees
import Lox.Proofs.Running.Resuming

namespace Lox

variable {α β γ : Type}

namespace Bindings

def map (g : α → β) (b : Bindings α) : Bindings β := ⟨b.entries.map fun e => (e.1, g e.2)⟩

/-- The values that are bound. -/
def values (b : Bindings α) : List α := b.entries.map Prod.snd

theorem map_empty (g : α → β) : (empty : Bindings α).map g = empty := rfl

@[simp] theorem names_map (g : α → β) (b : Bindings α) : (b.map g).names = b.names := by
  simp [names, map]

@[simp] theorem find?_map (g : α → β) (b : Bindings α) (name : String) :
    (b.map g).find? name = (b.find? name).map g := by
  obtain ⟨entries⟩ := b
  induction entries with
  | nil => rfl
  | cons entry rest ih =>
      simp only [find?, map, List.map_cons, lookUp] at ih ⊢
      split
      · rfl
      · exact ih

@[simp] theorem map_insert (g : α → β) (b : Bindings α) (name : String) (value : α) :
    (b.insert name value).map g = (b.map g).insert name (g value) := by
  obtain ⟨entries⟩ := b
  induction entries with
  | nil => rfl
  | cons entry rest ih =>
      simp only [insert, map, mk.injEq, List.map_cons, put] at ih ⊢
      split
      · rfl
      · rw [List.map_cons, ih]

theorem map_congr {g g' : α → β} {b : Bindings α} (h : ∀ v ∈ b.values, g v = g' v) :
    b.map g = b.map g' := by
  refine congrArg mk (List.map_congr_left fun e he => ?_)
  rw [h e.2 (List.mem_map_of_mem he)]

theorem map_map (g : α → β) (g' : β → γ) (b : Bindings α) : (b.map g).map g' = b.map (g' ∘ g) := by
  simp [map]

theorem map_id (b : Bindings α) : b.map id = b := by
  simp [map]

theorem value_of_map {g : α → α} {b : Bindings α} (h : b.map g = b) : ∀ v ∈ b.values, g v = v := by
  intro v hv
  obtain ⟨e, he, rfl⟩ := List.mem_map.mp hv
  have hentries := (congrArg entries h).trans (List.map_id b.entries).symm
  exact congrArg Prod.snd (List.map_inj_left.mp hentries e he)

end Bindings

namespace Scopes

def map (g : α → β) (ss : Scopes α) : Scopes β where
  scopes := ss.scopes.map fun scope => ⟨scope.enclosing, scope.bindings.map g⟩
  enclosing_lt := by
    intro s h outer houter
    rw [Array.getElem_map] at houter
    exact ss.enclosing_lt s _ outer houter

/-- The values that are bound in some scope. -/
def values (ss : Scopes α) : List α := ss.scopes.toList.flatMap fun scope => scope.bindings.values

variable (g : α → β) (ss : Scopes α) (s : ScopeId) (name : String)

theorem ext_scopes {ss ss' : Scopes α} (h : ss.scopes = ss'.scopes) : ss = ss' := by
  cases ss
  cases ss'
  cases h
  rfl

@[simp] theorem size_map : (ss.map g).size = ss.size := Array.size_map

@[simp] theorem enclosing?_map : (ss.map g).enclosing? s = ss.enclosing? s := by
  simp [enclosing?, map]

@[simp] theorem own?_map : (ss.map g).own? s name = (ss.own? s name).map g := by
  simp only [own?, map, Array.size_map, Array.getElem_map, Bindings.find?_map]
  split <;> rfl

@[simp] theorem names_map : (ss.map g).names s = ss.names s := by
  simp [names, map]

@[simp] theorem map_push (outer : Option ScopeId) : (ss.push outer).map g = (ss.map g).push outer :=
  ext_scopes (by simp [map, push, Bindings.map_empty])

@[simp] theorem map_define (value : α) :
    (ss.define s name value).map g = (ss.map g).define s name (g value) := by
  refine ext_scopes (Array.ext (by simp [map, define]) fun i hi hi' => ?_)
  simp only [map, define, Array.getElem_map, Array.getElem_modify]
  split <;> simp

@[simp] theorem get?_map : (ss.map g).get? s name = (ss.get? s name).map g := by
  induction s using Nat.strongRecOn with
  | ind s ih =>
      rw [get?_eq_or, get?_eq_or ss, own?_map, enclosing?_map, Option.map_or, Option.map_bind]
      refine congrArg _ (Option.bind_congr fun outer houter => ?_)
      exact ih outer (enclosing?_lt houter)

@[simp] theorem owner?_map : (ss.map g).owner? s name = ss.owner? s name := by
  induction s using Nat.strongRecOn with
  | ind s ih =>
      rw [owner?_eq_ite, owner?_eq_ite ss, own?_map, enclosing?_map, Option.isSome_map]
      have houter : ((ss.enclosing? s).bind fun outer => (ss.map g).owner? outer name) =
          (ss.enclosing? s).bind fun outer => ss.owner? outer name :=
        Option.bind_congr fun outer houter => ih outer (enclosing?_lt houter)
      rw [houter]

theorem map_congr {g g' : α → β} {ss : Scopes α} (h : ∀ v ∈ ss.values, g v = g' v) :
    ss.map g = ss.map g' := by
  refine ext_scopes (Array.map_congr_left fun scope hscope => ?_)
  have hbindings : scope.bindings.map g = scope.bindings.map g' :=
    Bindings.map_congr fun v hv =>
      h v (List.mem_flatMap.mpr ⟨scope, Array.mem_toList_iff.mpr hscope, hv⟩)
  rw [hbindings]

theorem map_id (ss : Scopes α) : ss.map id = ss := by
  refine ext_scopes ?_
  simp [map, Bindings.map_id]

theorem value_of_map {g : α → α} {ss : Scopes α} (h : ss.map g = ss) :
    ∀ v ∈ ss.values, g v = v := by
  intro v hv
  obtain ⟨scope, hscope, hv⟩ := List.mem_flatMap.mp hv
  have hscopes := congrArg (fun ss : Scopes α => ss.scopes.toList) h
  simp only [map, Array.toList_map] at hscopes
  have hsame := List.map_inj_left.mp (hscopes.trans (List.map_id _).symm) scope hscope
  exact Bindings.value_of_map (congrArg Scope.bindings hsame) v hv

@[simp] theorem ancestor?_map (distance : Nat) :
    (ss.map g).ancestor? s distance = ss.ancestor? s distance := by
  induction distance generalizing s with
  | zero => rfl
  | succ distance ih => simp [ancestor?, ih]

@[simp] theorem getAt?_map (distance : Nat) :
    (ss.map g).getAt? s distance name = (ss.getAt? s distance name).map g := by
  simp only [getAt?, ancestor?_map, own?_map]
  cases ss.ancestor? s distance <;> rfl

theorem map_defineAll (f : Value → Value) (ss : Scopes Value) (s : ScopeId) (params : List Token)
    (arguments : List Value) :
    (ss.defineAll s params arguments).map f =
      (ss.map f).defineAll s params (arguments.map f) := by
  induction params generalizing ss arguments with
  | nil => rfl
  | cons param params ih =>
      cases arguments with
      | nil => rfl
      | cons argument arguments => simp only [defineAll, List.map_cons, ih, map_define]

end Scopes

/-! ### Values -/

def Routine.relabel (f : NodeId → NodeId) (r : Routine) : Routine :=
  { r with declaration := r.declaration.relabel f }

def Closure.relabel (f : NodeId → NodeId) (c : Closure) : Closure :=
  { c with routine := c.routine.relabel f }

def Class.relabel (f : NodeId → NodeId) (c : Class) : Class :=
  { c with methods := c.methods.map (Routine.relabel f) }

/-- The value with other labels in the functions that it is made of. -/
def Value.relabel (f : NodeId → NodeId) : Value → Value
  | .nil => .nil
  | .boolean b => .boolean b
  | .number n => .number n
  | .string s => .string s
  | .native n => .native n
  | .function c => .function (c.relabel f)
  | .class_ c => .class_ (c.relabel f)
  | .instance_ inst c => .instance_ inst (c.relabel f)

def Flow.relabel (f : NodeId → NodeId) : Flow → Flow
  | .normal => .normal
  | .returned v => .returned (v.relabel f)

section

variable (f : NodeId → NodeId)

@[simp] theorem Routine.arity_relabel (r : Routine) : (r.relabel f).arity = r.arity := by
  simp [Routine.arity, Routine.relabel]

@[simp] theorem Class.initializer?_relabel (c : Class) :
    (c.relabel f).initializer? = c.initializer?.map (Routine.relabel f) :=
  Bindings.find?_map _ _ _

namespace Value

@[simp] theorem ofLiteral_relabel (value : Literal) :
    (ofLiteral value).relabel f = ofLiteral value := by
  cases value <;> rfl

@[simp] theorem pieces_relabel (v : Value) : (v.relabel f).pieces = v.pieces := by
  cases v with
  | function c =>
      exact congrArg (fun name : Token => ["<fn ", name.lexeme, ">"])
        (c.routine.declaration.name_relabel f)
  | _ => rfl

@[simp] theorem truthy_relabel (v : Value) : (v.relabel f).truthy = v.truthy := by
  cases v <;> rfl

@[simp] theorem equals_relabel (v w : Value) :
    (v.relabel f).equals (w.relabel f) = v.equals w := by
  cases v <;> cases w <;> rfl

@[simp] theorem arity?_relabel (v : Value) : (v.relabel f).arity? = v.arity? := by
  cases v with
  | function c => exact congrArg some (c.routine.arity_relabel f)
  | class_ c => simp [relabel, arity?, Function.comp_def]
  | _ => rfl

end Value

theorem Operator.unary_relabel (operator : Kind) (v : Value) :
    Operator.unary operator (v.relabel f) = (Operator.unary operator v).map (Value.relabel f) := by
  unfold Operator.unary
  split
  · rw [Value.truthy_relabel]
    rfl
  · cases v <;> rfl
  · rfl

theorem Operator.arithmetic_relabel (operator : Kind) (a b : Float) :
    (Operator.arithmetic operator a b).map (Value.relabel f) =
      Operator.arithmetic operator a b := by
  unfold Operator.arithmetic
  split
  case h_3 => split <;> rfl
  all_goals rfl

theorem Operator.binary_relabel (operator : Kind) (v w : Value) :
    Operator.binary operator (v.relabel f) (w.relabel f) =
      (Operator.binary operator v w).map (Value.relabel f) := by
  unfold Operator.binary
  split
  · rw [Value.equals_relabel]
    rfl
  · rw [Value.equals_relabel]
    rfl
  · cases v <;> cases w <;> rfl
  · cases v with
    | number a =>
        cases w with
        | number b => exact (Operator.arithmetic_relabel f _ a b).symm
        | _ => rfl
    | _ => rfl

@[simp] theorem Operator.decides_relabel (operator : Kind) (v : Value) :
    Operator.decides operator (v.relabel f) = Operator.decides operator v := by
  rw [Operator.decides, Operator.decides, Value.truthy_relabel]

end

/-! ### Machines -/

/-- The machine with all its functions relabelled, and with another table. -/
def Machine.relabel (f : NodeId → NodeId) (hops : Hops) (m : Machine) : Machine :=
  { m with
    scopes := m.scopes.map (Value.relabel f)
    instances := m.instances.map (Bindings.map (Value.relabel f))
    hops }

/-- Other labels for the nodes of a machine whose table is `before`. The table `after` has under the
new labels what `before` had under the old ones. -/
structure Relabelling where
  label : NodeId → NodeId
  before : Hops
  after : Hops
  agree : ∀ node, after[label node]? = before[node]?

namespace Relabelling

variable (ρ : Relabelling)

/-- The machine with the new labels, and with the table for them. -/
abbrev machine (m : Machine) : Machine := m.relabel ρ.label ρ.after

def ending (g : α → β) : Ending α → Ending β
  | .done value m => .done (g value) (ρ.machine m)
  | .failed fault m => .failed fault (ρ.machine m)
  | .unfinished => .unfinished

/-- On a relabelled machine the second run does what the first one does, and ends with the value
that `g` makes of its value. -/
structure Commutes (g : α → β) (r : Run α) (r' : Run β) : Prop where
  ending : ∀ m, m.hops = ρ.before → r' (ρ.machine m) = ρ.ending g (r m)
  resumes : r.Resumes

end Relabelling

end Lox
