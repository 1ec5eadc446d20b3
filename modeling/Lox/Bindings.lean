/-!
Names bound to values.

A binding is a list of pairs in the order in which the names were first bound. Giving a bound name
a new value leaves it in its place, so no name stands twice.
-/

namespace Lox

structure Bindings (α : Type) where
  entries : List (String × α)

namespace Bindings

variable {α : Type}

def empty : Bindings α := ⟨[]⟩

def lookUp (name : String) : List (String × α) → Option α
  | [] => none
  | (other, value) :: rest => if other = name then some value else lookUp name rest

def put (name : String) (value : α) : List (String × α) → List (String × α)
  | [] => [(name, value)]
  | (other, old) :: rest =>
      if other = name then (name, value) :: rest else (other, old) :: put name value rest

def find? (b : Bindings α) (name : String) : Option α := lookUp name b.entries

def insert (b : Bindings α) (name : String) (value : α) : Bindings α :=
  ⟨put name value b.entries⟩

def names (b : Bindings α) : List String := b.entries.map Prod.fst

@[simp] theorem find?_empty (name : String) : (empty : Bindings α).find? name = none := rfl

theorem lookUp_put (name other : String) (value : α) (entries : List (String × α)) :
    lookUp other (put name value entries) =
      if name = other then some value else lookUp other entries := by
  induction entries with
  | nil => simp [put, lookUp]
  | cons entry rest ih =>
      obtain ⟨first, old⟩ := entry
      unfold put
      split
      · rename_i h
        subst h
        simp only [lookUp]
        split <;> rfl
      · rename_i h
        simp only [lookUp, ih]
        split
        · rename_i hother
          subst hother
          rw [if_neg (Ne.symm h)]
        · rfl

theorem find?_insert (b : Bindings α) (name other : String) (value : α) :
    (b.insert name value).find? other = if name = other then some value else b.find? other :=
  lookUp_put name other value b.entries

@[simp] theorem find?_insert_self (b : Bindings α) (name : String) (value : α) :
    (b.insert name value).find? name = some value := by
  simp [find?_insert]

theorem find?_insert_of_ne (b : Bindings α) {name other : String} (value : α)
    (h : name ≠ other) : (b.insert name value).find? other = b.find? other := by
  simp [find?_insert, h]

theorem put_put (name : String) (old value : α) (entries : List (String × α)) :
    put name value (put name old entries) = put name value entries := by
  induction entries with
  | nil => simp [put]
  | cons entry rest ih =>
      obtain ⟨first, former⟩ := entry
      by_cases h : first = name <;> simp [put, h, ih]

theorem insert_insert (b : Bindings α) (name : String) (old value : α) :
    (b.insert name old).insert name value = b.insert name value :=
  congrArg Bindings.mk (put_put name old value b.entries)

theorem mem_names_iff (b : Bindings α) (name : String) :
    name ∈ b.names ↔ (b.find? name).isSome := by
  obtain ⟨entries⟩ := b
  induction entries with
  | nil => simp [names, find?, lookUp]
  | cons entry rest ih =>
      obtain ⟨first, value⟩ := entry
      simp only [names, find?, List.map_cons, List.mem_cons, lookUp] at ih ⊢
      split
      · rename_i h
        simp [h]
      · rename_i h
        rw [← ih]
        simp [Ne.symm h]

end Bindings

end Lox
