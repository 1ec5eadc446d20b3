import Lox.Proofs.Running.Scopes

/-!
The chain of scopes around a scope, and what is found along it.

A name is read and written in three ways: read along the chain, written along the chain, and
reached over a number of links. All three find the binding of the scope that owns the name, which is
the first one of the chain that binds it. Proofs go by induction on the chain, which is a scope
without another one around it, or one more link before the chain of the enclosing scope.
-/

namespace Lox

theorem Bindings.names_insert_of_mem {α : Type} {b : Bindings α} {name : String}
    (h : name ∈ b.names) (value : α) : (b.insert name value).names = b.names := by
  obtain ⟨entries⟩ := b
  simp only [names, insert] at h ⊢
  induction entries with
  | nil => cases h
  | cons entry rest ih =>
      obtain ⟨first, old⟩ := entry
      unfold put
      split
      · rename_i hfirst
        simp [hfirst]
      · rename_i hfirst
        have hrest : name ∈ rest.map Prod.fst := by simpa [Ne.symm hfirst] using h
        simp only [List.map_cons, ih hrest]

end Lox

namespace Lox.Scopes

variable {α : Type} {ss ss' : Scopes α} {s outer owner : ScopeId} {name : String} {value : α}

/-! ### Chains -/

theorem outwards_congr (h : ∀ t ≤ s, ss'.enclosing? t = ss.enclosing? t) :
    ss'.outwards s = ss.outwards s := by
  induction s using outwards.induct ss with
  | case1 s hroot =>
      rw [outwards_of_none hroot, outwards_of_none ((h s (Nat.le_refl s)).trans hroot)]
  | case2 s outer hnext _ ih =>
      have hinner : ∀ t ≤ outer, ss'.enclosing? t = ss.enclosing? t := fun t ht =>
        h t (Nat.le_trans ht (Nat.le_of_lt (enclosing?_lt hnext)))
      rw [outwards_of_some hnext, outwards_of_some ((h s (Nat.le_refl s)).trans hnext), ih hinner]

theorem outwards_define (s : ScopeId) :
    (ss.define owner name value).outwards s = ss.outwards s :=
  outwards_congr fun t _ => enclosing?_define t

/-! ### Hops -/

theorem getElem?_outwards (ss : Scopes α) (s : ScopeId) (distance : Nat) :
    (ss.outwards s)[distance]? = ss.ancestor? s distance := by
  induction s using outwards.induct ss generalizing distance with
  | case1 s hroot =>
      rw [outwards_of_none hroot]
      cases distance with
      | zero => rfl
      | succ distance => simp [ancestor?, hroot]
  | case2 s outer hnext _ ih =>
      rw [outwards_of_some hnext]
      cases distance with
      | zero => rfl
      | succ distance => rw [List.getElem?_cons_succ, ih, ancestor?, hnext, Option.bind_some]

/-- Hops compose. -/
theorem ancestor?_add (ss : Scopes α) (s : ScopeId) (m n : Nat) :
    ss.ancestor? s (m + n) = (ss.ancestor? s m).bind fun outer => ss.ancestor? outer n := by
  induction m generalizing s with
  | zero => rw [Nat.zero_add, ancestor?, Option.bind_some]
  | succ m ih =>
      rw [Nat.succ_add, ancestor?, ancestor?, Option.bind_assoc]
      exact Option.bind_congr fun outer _ => ih outer

/-- The chain ends with an outermost scope, and no hop leads past it. -/
theorem exists_outermost (ss : Scopes α) (s : ScopeId) :
    ∃ height root, ss.ancestor? s height = some root ∧ ss.enclosing? root = none ∧
      ∀ distance, ss.ancestor? s distance = none ↔ height < distance := by
  induction s using outwards.induct ss with
  | case1 s hroot =>
      refine ⟨0, s, rfl, hroot, fun distance => ?_⟩
      cases distance <;> simp [ancestor?, hroot]
  | case2 s outer hnext _ ih =>
      obtain ⟨height, root, hheight, hroot, habsent⟩ := ih
      refine ⟨height + 1, root, by rw [ancestor?, hnext, Option.bind_some, hheight], hroot, ?_⟩
      intro distance
      cases distance with
      | zero => simp [ancestor?]
      | succ distance =>
          rw [ancestor?, hnext, Option.bind_some, habsent, Nat.add_lt_add_iff_right]

theorem ancestor?_le {distance : Nat} (h : ss.ancestor? s distance = some outer) : outer ≤ s := by
  induction distance generalizing s with
  | zero => exact Nat.le_of_eq (Option.some.inj h).symm
  | succ distance ih =>
      obtain ⟨next, hnext, houter⟩ := Option.bind_eq_some_iff.mp h
      exact Nat.le_trans (ih houter) (Nat.le_of_lt (enclosing?_lt hnext))

theorem getAt?_succ (hnext : ss.enclosing? s = some outer) (distance : Nat) (name : String) :
    ss.getAt? s (distance + 1) name = ss.getAt? outer distance name := by
  rw [getAt?, ancestor?, hnext, Option.bind_some, getAt?]

/-! ### Owners -/

theorem owner?_eq_find? (ss : Scopes α) (s : ScopeId) (name : String) :
    ss.owner? s name = (ss.outwards s).find? fun scope => name ∈ ss.names scope := by
  induction s using outwards.induct ss with
  | case1 s hroot =>
      rw [owner?_of_root hroot, outwards_of_none hroot]
      by_cases hown : (ss.own? s name).isSome <;> simp [mem_names_iff, hown]
  | case2 s outer hnext _ ih =>
      rw [owner?_eq_ite, outwards_of_some hnext, hnext, Option.bind_some, ih]
      by_cases hown : (ss.own? s name).isSome <;> simp [mem_names_iff, hown]

theorem mem_names_of_owner? (h : ss.owner? s name = some owner) : name ∈ ss.names owner := by
  rw [owner?_eq_find?] at h
  simpa using List.find?_some h

theorem isSome_own?_of_owner? (h : ss.owner? s name = some owner) :
    (ss.own? owner name).isSome :=
  mem_names_iff.mp (mem_names_of_owner? h)

theorem get?_eq_bind_owner? (ss : Scopes α) (s : ScopeId) (name : String) :
    ss.get? s name = (ss.owner? s name).bind fun owner => ss.own? owner name := by
  induction s using outwards.induct ss with
  | case1 s hroot =>
      rw [get?_of_root hroot, owner?_of_root hroot]
      cases hown : ss.own? s name <;> simp [hown]
  | case2 s outer hnext _ ih =>
      rw [get?_eq_or, owner?_eq_ite, hnext, Option.bind_some, Option.bind_some, ih]
      cases hown : ss.own? s name <;> simp [hown]

theorem get?_eq_none_iff : ss.get? s name = none ↔ ss.owner? s name = none := by
  rw [get?_eq_bind_owner?]
  cases howner : ss.owner? s name with
  | none => simp
  | some owner =>
      obtain ⟨value, hvalue⟩ := Option.isSome_iff_exists.mp (isSome_own?_of_owner? howner)
      simp [hvalue]

theorem exists_first_iff {found : Nat → Option α} :
    (∃ n, found n = some value ∧ ∀ k < n, found k = none) ↔
      found 0 = some value ∨
        found 0 = none ∧ ∃ n, found (n + 1) = some value ∧ ∀ k < n, found (k + 1) = none := by
  rw [← Nat.or_exists_add_one]
  simp only [Nat.forall_lt_succ_left, Nat.not_lt_zero, false_imp_iff, implies_true, and_true]
  refine or_congr_right ⟨?_, ?_⟩
  · rintro ⟨n, hn, hzero, hbefore⟩
    exact ⟨hzero, n, hn, hbefore⟩
  · rintro ⟨hzero, n, hn, hbefore⟩
    exact ⟨n, hn, hzero, hbefore⟩

/-- Reading along the chain gives what is bound at the least distance at which a hop finds
something. -/
theorem get?_eq_some_iff_getAt? : ss.get? s name = some value ↔
    ∃ distance, ss.getAt? s distance name = some value ∧
      ∀ nearer < distance, ss.getAt? s nearer name = none := by
  have hhere (s : ScopeId) : ss.getAt? s 0 name = ss.own? s name := rfl
  induction s using outwards.induct ss with
  | case1 s hroot =>
      have hbeyond (distance : Nat) : ss.getAt? s (distance + 1) name = none := by
        rw [getAt?, ancestor?, hroot, Option.bind_none, Option.bind_none]
      rw [exists_first_iff, hhere, get?_of_root hroot]
      simp [hbeyond]
  | case2 s outer hnext _ ih =>
      -- A hop of no links finds what is bound here; all others go on from the enclosing scope.
      rw [exists_first_iff, hhere, get?_eq_or, hnext, Option.bind_some]
      simp only [getAt?_succ hnext, ← ih]
      cases ss.own? s name <;> simp

theorem assign?_eq_map_owner? (ss : Scopes α) (s : ScopeId) (name : String) (value : α) :
    ss.assign? s name value =
      (ss.owner? s name).map fun owner => ss.define owner name value := by
  induction s using outwards.induct ss with
  | case1 s hroot =>
      rw [assign?_eq_ite, owner?_eq_ite, hroot]
      by_cases hown : (ss.own? s name).isSome <;> simp [hown]
  | case2 s outer hnext _ ih =>
      rw [assign?_eq_ite, owner?_eq_ite, hnext, Option.bind_some, Option.bind_some, ih]
      by_cases hown : (ss.own? s name).isSome <;> simp [hown]

/-! ### Writing to an owner -/

theorem names_define_of_mem (h : name ∈ ss.names owner) (value : α) (s : ScopeId) :
    (ss.define owner name value).names s = ss.names s := by
  by_cases hs : owner = s
  · subst hs
    unfold names define at *
    simp only [Array.size_modify, Array.getElem_modify, if_pos]
    split
    · rename_i hs
      rw [dif_pos hs] at h
      exact Bindings.names_insert_of_mem h value
    · rfl
  · exact names_define_of_ne hs

theorem owner?_define_of_mem (h : name ∈ ss.names owner) (value : α) (s : ScopeId)
    (other : String) : (ss.define owner name value).owner? s other = ss.owner? s other := by
  simp only [owner?_eq_find?, outwards_define, names_define_of_mem h]

theorem lt_size_of_mem_names (h : name ∈ ss.names s) : s < ss.size := by
  refine Nat.lt_of_not_le fun hsize => ?_
  rw [mem_names_iff, own?_of_size_le hsize] at h
  cases h

/-- The new value is read wherever the name has this owner, and nowhere else. -/
theorem get?_define_of_mem (h : name ∈ ss.names owner) (value : α) (s : ScopeId)
    (other : String) :
    (ss.define owner name value).get? s other =
      if other = name ∧ ss.owner? s name = some owner then some value else ss.get? s other := by
  rw [get?_eq_bind_owner?, get?_eq_bind_owner?, owner?_define_of_mem h]
  by_cases hname : other = name
  · subst hname
    cases hscope : ss.owner? s other with
    | none => simp
    | some scope => simp [own?_define, lt_size_of_mem_names h, eq_comm]
  · cases hscope : ss.owner? s other with
    | none => simp [hname]
    | some scope => simp [own?_define, hname, Ne.symm hname]

end Lox.Scopes
