import Lox.Machine

namespace Lox

theorem Bindings.names_insert_congr {α : Type} {b b' : Bindings α} {name : String}
    {value value' : α} (h : b'.names = b.names) :
    (b'.insert name value').names = (b.insert name value).names := by
  obtain ⟨entries⟩ := b
  obtain ⟨entries'⟩ := b'
  simp only [names, insert] at h ⊢
  induction entries generalizing entries' with
  | nil =>
      rw [List.map_nil, List.map_eq_nil_iff] at h
      rw [h]
      rfl
  | cons entry rest ih =>
      obtain ⟨first, old⟩ := entry
      cases entries' with
      | nil => cases h
      | cons entry' rest' =>
          obtain ⟨first', old'⟩ := entry'
          obtain ⟨rfl, hrest⟩ : first' = first ∧ rest'.map Prod.fst = rest.map Prod.fst := by
            simpa using h
          unfold put
          split
          · simp [hrest]
          · simp [ih rest' hrest]

end Lox

namespace Lox.Scopes

variable {α : Type} {ss ss' ss'' : Scopes α} {s outer : ScopeId} {name : String} {value : α}

theorem enclosing?_of_size_le (h : ss.size ≤ s) : ss.enclosing? s = none :=
  dif_neg (Nat.not_lt.mpr h)

theorem own?_of_size_le (h : ss.size ≤ s) : ss.own? s name = none :=
  dif_neg (Nat.not_lt.mpr h)

theorem lt_size_of_enclosing? (h : ss.enclosing? s = some outer) : s < ss.size := by
  by_cases hs : s < ss.size
  · exact hs
  · rw [enclosing?_of_size_le (Nat.not_lt.mp hs)] at h
    cases h

@[simp] theorem size_push (outer : Option ScopeId) : (ss.push outer).size = ss.size + 1 :=
  Array.size_push _

theorem enclosing?_push (outer : Option ScopeId) (s : ScopeId) :
    (ss.push outer).enclosing? s =
      if s = ss.size then outer.filter (· < ss.size) else ss.enclosing? s := by
  by_cases hs : s = ss.size
  · subst hs
    simp only [enclosing?, push, size, Array.size_push, Nat.lt_succ_self, dite_true,
      Array.getElem_push_eq, if_true]
    rfl
  · rw [if_neg hs]
    unfold enclosing? push size at *
    grind

theorem own?_push (outer : Option ScopeId) (s : ScopeId) (name : String) :
    (ss.push outer).own? s name = ss.own? s name := by
  by_cases hs : s = ss.size
  · subst hs
    simp [own?, push, size]
  · unfold own? push size at *
    grind

@[simp] theorem size_define : (ss.define s name value).size = ss.size := by
  simp [size, define]

@[simp] theorem enclosing?_define (s' : ScopeId) :
    (ss.define s name value).enclosing? s' = ss.enclosing? s' := by
  unfold enclosing? define
  simp only [Array.size_modify, Array.getElem_modify]
  grind

theorem own?_define (s' : ScopeId) (name' : String) :
    (ss.define s name value).own? s' name' =
      if s = s' ∧ name = name' ∧ s < ss.size then some value else ss.own? s' name' := by
  unfold own? define size
  simp only [Array.size_modify, Array.getElem_modify]
  by_cases hs' : s' < ss.scopes.size
  · by_cases hs : s = s'
    · subst hs
      simp [hs', Bindings.find?_insert]
    · simp [hs', hs]
  · have : ¬(s = s' ∧ name = name' ∧ s < ss.scopes.size) := by
      rintro ⟨rfl, -, h⟩
      exact hs' h
    simp [hs', this]

theorem own?_define_self (h : s < ss.size) : (ss.define s name value).own? s name = some value := by
  rw [own?_define, if_pos ⟨rfl, rfl, h⟩]

theorem names_push (h : s < ss.size) (outer : Option ScopeId) :
    (ss.push outer).names s = ss.names s := by
  unfold names push size at *
  grind

theorem names_define_of_ne {s' : ScopeId} (h : s ≠ s') :
    (ss.define s name value).names s' = ss.names s' := by
  unfold names define
  simp only [Array.size_modify, Array.getElem_modify]
  grind

theorem names_define_congr {value' : α} (hsize : ss'.size = ss.size)
    (h : ss'.names s = ss.names s) :
    (ss'.define s name value').names s = (ss.define s name value).names s := by
  unfold names define size at *
  simp only [Array.size_modify, Array.getElem_modify, if_pos]
  split
  · rename_i hs
    have hs' : s < ss.scopes.size := hsize ▸ hs
    rw [dif_pos hs, dif_pos hs'] at h
    rw [dif_pos hs']
    exact Bindings.names_insert_congr h
  · rename_i hs
    rw [dif_neg (hsize ▸ hs)]

theorem mem_names_iff : name ∈ ss.names s ↔ (ss.own? s name).isSome := by
  unfold names own?
  split
  · exact Bindings.mem_names_iff _ name
  · simp

theorem get?_of_root (h : ss.enclosing? s = none) (name : String) :
    ss.get? s name = ss.own? s name := by
  rw [get?_eq_or, h, Option.bind_none, Option.or_none]

theorem owner?_of_root (h : ss.enclosing? s = none) (name : String) :
    ss.owner? s name = if (ss.own? s name).isSome then some s else none := by
  rw [owner?_eq_ite, h, Option.bind_none]

/-- All that there was is still there: each scope in its place, with its names. -/
structure Extends (ss ss' : Scopes α) : Prop where
  size_le : ss.size ≤ ss'.size
  enclosing : ∀ s < ss.size, ss'.enclosing? s = ss.enclosing? s
  own : ∀ s name, (ss.own? s name).isSome → (ss'.own? s name).isSome

namespace Extends

theorem refl (ss : Scopes α) : ss.Extends ss :=
  ⟨Nat.le_refl _, fun _ _ => rfl, fun _ _ h => h⟩

theorem trans (h : ss.Extends ss') (h' : ss'.Extends ss'') : ss.Extends ss'' := by
  refine ⟨Nat.le_trans h.size_le h'.size_le, ?_, fun s name hs => h'.own s name (h.own s name hs)⟩
  intro s hs
  rw [h'.enclosing s (Nat.lt_of_lt_of_le hs h.size_le), h.enclosing s hs]

theorem push (ss : Scopes α) (outer : Option ScopeId) : ss.Extends (ss.push outer) := by
  refine ⟨by simp, ?_, ?_⟩
  · intro s hs
    rw [enclosing?_push, if_neg (Nat.ne_of_lt hs)]
  · intro s name h
    rwa [own?_push]

theorem define (ss : Scopes α) (s : ScopeId) (name : String) (value : α) :
    ss.Extends (ss.define s name value) := by
  refine ⟨by simp, by simp, ?_⟩
  intro s' name' h
  rw [own?_define]
  split
  · rfl
  · exact h

end Extends

/-- The scopes from `s` outwards. -/
def outwards (ss : Scopes α) (s : ScopeId) : List ScopeId :=
  match h : ss.enclosing? s with
  | none => [s]
  | some outer =>
      have := enclosing?_lt h
      s :: ss.outwards outer
termination_by s

theorem outwards_of_none (h : ss.enclosing? s = none) : ss.outwards s = [s] := by
  rw [outwards]
  split
  · rfl
  · simp_all

theorem outwards_of_some (h : ss.enclosing? s = some outer) :
    ss.outwards s = s :: ss.outwards outer := by
  rw [outwards]
  split
  · simp_all
  · simp_all

end Lox.Scopes
