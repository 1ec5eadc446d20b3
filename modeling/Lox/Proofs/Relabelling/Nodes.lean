import Lox.Proofs.Relabelling.Machines

/-!
The nodes that values and machines hold.

They are those of the functions that they are made of. What a relabelling makes of a value or a
machine depends on them only.
-/

namespace Lox

def Routine.nodes (r : Routine) : List NodeId := r.declaration.references.map Reference.label

def Class.nodes (c : Class) : List NodeId := c.methods.values.flatMap Routine.nodes

/-- The nodes in the functions that a value is made of. -/
def Value.nodes : Value → List NodeId
  | .function c => c.routine.nodes
  | .class_ c => c.nodes
  | .instance_ _ c => c.nodes
  | _ => []

/-- All that is stored in scopes and fields. -/
def Machine.values (m : Machine) : List Value :=
  m.scopes.values ++ m.instances.toList.flatMap Bindings.values

def Machine.nodes (m : Machine) : List NodeId := m.values.flatMap Value.nodes

section

variable {f g : NodeId → NodeId}

theorem Routine.relabel_congr {r : Routine} (h : ∀ n ∈ r.nodes, f n = g n) :
    r.relabel f = r.relabel g := by
  have hdeclaration : r.declaration.relabel f = r.declaration.relabel g :=
    FunctionDecl.relabel_congr fun ref href => h ref.label (List.mem_map_of_mem href)
  rw [Routine.relabel, Routine.relabel, hdeclaration]

theorem Class.relabel_congr {c : Class} (h : ∀ n ∈ c.nodes, f n = g n) :
    c.relabel f = c.relabel g := by
  have hmethods : c.methods.map (Routine.relabel f) = c.methods.map (Routine.relabel g) :=
    Bindings.map_congr fun r hr =>
      Routine.relabel_congr fun n hn => h n (List.mem_flatMap.mpr ⟨r, hr, hn⟩)
  rw [Class.relabel, Class.relabel, hmethods]

theorem Value.relabel_congr {v : Value} (h : ∀ n ∈ v.nodes, f n = g n) :
    v.relabel f = v.relabel g := by
  cases v with
  | function c =>
      rw [Value.relabel, Value.relabel, Closure.relabel, Closure.relabel, Routine.relabel_congr h]
  | class_ c | instance_ inst c => rw [Value.relabel, Value.relabel, Class.relabel_congr h]
  | _ => rfl

theorem Routine.relabel_id (r : Routine) : r.relabel id = r := by
  rw [Routine.relabel, FunctionDecl.relabel_id]

theorem Class.relabel_id (c : Class) : c.relabel id = c := by
  rw [Class.relabel, funext (f := Routine.relabel id) (g := id) Routine.relabel_id,
    Bindings.map_id]

theorem Value.relabel_id (v : Value) : v.relabel id = v := by
  cases v with
  | function c => rw [Value.relabel, Closure.relabel, Routine.relabel_id]
  | class_ c | instance_ inst c => rw [Value.relabel, Class.relabel_id]
  | _ => rfl

theorem Routine.label_of_relabel {r : Routine} (h : r.relabel f = r) : ∀ n ∈ r.nodes, f n = n := by
  intro n hn
  obtain ⟨ref, href, rfl⟩ := List.mem_map.mp hn
  exact FunctionDecl.relabel_eq_self_iff.mp (congrArg Routine.declaration h) ref href

theorem Class.label_of_relabel {c : Class} (h : c.relabel f = c) : ∀ n ∈ c.nodes, f n = n := by
  intro n hn
  obtain ⟨r, hr, hn⟩ := List.mem_flatMap.mp hn
  exact Routine.label_of_relabel (Bindings.value_of_map (congrArg Class.methods h) r hr) n hn

theorem Value.label_of_relabel {v : Value} (h : v.relabel f = v) : ∀ n ∈ v.nodes, f n = n := by
  cases v with
  | function c =>
      simp only [Value.relabel, Value.function.injEq] at h
      exact Routine.label_of_relabel (congrArg Closure.routine h)
  | class_ c =>
      simp only [Value.relabel, Value.class_.injEq] at h
      exact Class.label_of_relabel h
  | instance_ inst c =>
      simp only [Value.relabel, Value.instance_.injEq, true_and] at h
      exact Class.label_of_relabel h
  | _ => simp [Value.nodes]

end

section

variable {f g : NodeId → NodeId} {m : Machine}

/-- What comes of a machine depends on the labels of its own nodes only. -/
theorem Machine.relabel_congr (h : ∀ n ∈ m.nodes, f n = g n) (hops : Hops) :
    m.relabel f hops = m.relabel g hops := by
  have hvalue : ∀ v ∈ m.values, v.relabel f = v.relabel g := fun v hv =>
    Value.relabel_congr fun n hn => h n (List.mem_flatMap.mpr ⟨v, hv, hn⟩)
  have hscopes : m.scopes.map (Value.relabel f) = m.scopes.map (Value.relabel g) :=
    Scopes.map_congr fun v hv => hvalue v (List.mem_append_left _ hv)
  have hinstances : m.instances.map (Bindings.map (Value.relabel f)) =
      m.instances.map (Bindings.map (Value.relabel g)) :=
    Array.map_congr_left fun fields hfields => Bindings.map_congr fun v hv =>
      hvalue v (List.mem_append_right _
        (List.mem_flatMap.mpr ⟨fields, Array.mem_toList_iff.mpr hfields, hv⟩))
  rw [relabel, relabel, hscopes, hinstances]

theorem Machine.relabel_id (m : Machine) : m.relabel id m.hops = m := by
  have hvalue : Value.relabel id = id := funext Value.relabel_id
  have hfields : Bindings.map (id : Value → Value) = id := funext Bindings.map_id
  rw [relabel, hvalue, Scopes.map_id, hfields, Array.map_id]

theorem Machine.label_of_relabel {hops : Hops} (h : m.relabel f hops = m) :
    ∀ n ∈ m.nodes, f n = n := by
  intro n hn
  obtain ⟨v, hv, hn⟩ := List.mem_flatMap.mp hn
  refine Value.label_of_relabel ?_ n hn
  rcases List.mem_append.mp hv with hv | hv
  · exact Scopes.value_of_map (congrArg Machine.scopes h) v hv
  · obtain ⟨fields, hfields, hv⟩ := List.mem_flatMap.mp hv
    have hinstances := congrArg (fun m : Machine => m.instances.toList) h
    simp only [Machine.relabel, Array.toList_map] at hinstances
    have hsame := List.map_inj_left.mp (hinstances.trans (List.map_id _).symm) fields hfields
    exact Bindings.value_of_map hsame v hv

end

end Lox
