import Lox.Proofs.Running.Faults
import Lox.Proofs.Running.Fuel
import Lox.Proofs.Running.Growth
import Lox.Proofs.Scoping.Distinct
import Lox.Proofs.Separation.Endings

/-!
The globals before and after a part of a run.

Whatever is run adds the names of the declarations that it is made of, if it is run in the outermost
scope, and no others. A declaration that is done has added its name, and one that fails has not.
-/

namespace Lox

/-- The name that a declaration binds where it stands. -/
def Stmt.binds? {Label : Type} : Stmt Label → Option Token
  | .var name _ => some name
  | .function declaration => some declaration.name
  | .class_ name _ => some name
  | _ => none

theorem Stmt.binds?_of_plain {Label : Type} {s : Stmt Label} (h : s.plain) : s.binds? = none := by
  cases s <;> first | rfl | cases h

theorem Stmt.isSome_binds? {Label : Type} {s : Stmt Label} (h : ¬s.plain) : s.binds?.isSome := by
  cases s <;> first | rfl | exact absurd rfl h

theorem Stmt.declared_of_orderly {s : Stmt NodeId} (h : s.orderly) :
    s.declared = s.binds?.toList := by
  by_cases hplain : s.plain
  · rw [s.declared_of_plain hplain h, Stmt.binds?_of_plain hplain]
    rfl
  · cases s with
    | var | function | class_ => rfl
    | _ => exact absurd rfl hplain

/-- The globals of the second machine are those of the first one and these names. -/
def Machine.Adds (names : List Token) (m m' : Machine) : Prop :=
  ∀ name, name ∈ m'.globalNames ↔ name ∈ m.globalNames ∨ name ∈ names.map Token.lexeme

section

variable {α : Type} {names more : List Token} {m m' m'' : Machine} {n : Nat} {fault : Diagnostic}

theorem Machine.Adds.of_scopes (h : m'.scopes = m.scopes) : m.Adds [] m' := by
  intro name
  simp [globalNames, h]

theorem Machine.Adds.trans (h : m.Adds names m') (h' : m'.Adds more m'') :
    m.Adds (names ++ more) m'' := by
  intro name
  rw [h' name, h name, List.map_append, List.mem_append, or_assoc]

theorem Machine.Grows.adds (h : m.Grows (names.map Token.lexeme) m')
    (hextends : m.scopes.Extends m'.scopes)
    (hbound : ∀ t ∈ names, (m'.scopes.own? globalScope t.lexeme).isSome) : m.Adds names m' := by
  intro name
  rw [Machine.globalNames, Machine.globalNames, Scopes.mem_names_iff, Scopes.mem_names_iff]
  refine ⟨h.globals name, ?_⟩
  rintro (hname | hname)
  · exact hextends.own _ _ hname
  · obtain ⟨t, ht, rfl⟩ := List.mem_map.mp hname
    exact hbound t ht

theorem Ending.Grows.of_machine? {names : List String} {ending : Ending α}
    (h : ending.Grows names m) (hm : ending.machine? = some m') : m.Grows names m' := by
  cases ending with
  | done v m₁ | failed fault m₁ =>
      cases hm
      exact h
  | unfinished => cases hm

/-- The names that a moment may add to the globals. -/
def Moment.declared (x : Moment) : List String :=
  match x.task with
  | .execute s => x.machine.declares s.declared
  | .executeAll ss => x.machine.declares (ss.flatMap Stmt.declared)
  | _ => []

theorem Moment.Grows.of_left {x : Moment} (h : x.Grows) (hx : x.Left m) :
    x.machine.Grows x.declared m := by
  obtain ⟨n, task, m₀⟩ := x
  cases task <;> simp only [Moment.Left, Moment.ending, Ending.machine?_map] at hx <;>
    simp only [Moment.Grows] at h <;> exact h.of_machine? hx

theorem bound_of_execute {s : Stmt NodeId} {t : Token} {flow : Flow} (ht : s.binds? = some t)
    (hm : m.current < m.scopes.size) (h : execute n s m = .done flow m') :
    (m'.scopes.own? m.current t.lexeme).isSome := by
  have hdefined : ∀ (scopes : Scopes Value) (v : Value), m.current < scopes.size →
      ((scopes.define m.current t.lexeme v).own? m.current t.lexeme).isSome := by
    intro scopes v hsize
    rw [Scopes.own?_define_self hsize]
    rfl
  cases n with
  | zero => cases h
  | succ n =>
      cases s with
      | var name initial =>
          cases ht
          cases initial with
          | none =>
              cases h
              exact hdefined _ _ hm
          | some e =>
              obtain ⟨v, m₁, hv, h⟩ := Run.exists_of_bind_done h
              cases h
              have hresumes := ((allResume n).evaluate e).of_done hv
              dsimp only
              rw [hresumes.current]
              exact hdefined _ _ (Nat.lt_of_lt_of_le hm hresumes.scopes.size_le)
      | function declaration | class_ name methods =>
          cases ht
          cases h
          exact hdefined _ _ hm
      | _ => cases ht

end

namespace Setting

variable {W : Setting} {Γ : List OpenFrame} {n : Nat} {m m' : Machine} {x : Moment}
  {fault : Diagnostic}

theorem Ready.adds_nothing (hx : W.Ready Γ x) (hleft : x.Left m) (hdeclared : x.declared = []) :
    x.machine.Adds [] m := by
  have hgrows := hx.grows.of_left hleft
  rw [hdeclared] at hgrows
  exact Machine.Grows.adds hgrows hleft.extends (by simp)

theorem Ready.execute_adds {s : Stmt NodeId} {flow : Flow} (hx : W.Ready Γ ⟨n, .execute s, m⟩)
    (hcurrent : m.current = globalScope) (h : Lox.execute n s m = .done flow m') :
    m.Adds s.binds?.toList m' := by
  have hleft : Moment.Left ⟨n, .execute s, m⟩ m' := by
    rw [Moment.Left, Moment.ending, h]
    rfl
  have hgrows := hx.grows.of_left hleft
  dsimp only [Moment.declared] at hgrows
  rw [Machine.declares, if_pos hcurrent, Stmt.declared_of_orderly hx.task.2.2] at hgrows
  refine hgrows.adds hleft.extends fun t ht => ?_
  rw [← hcurrent]
  exact bound_of_execute (Option.mem_toList.mp ht) (hcurrent ▸ hx.fits.nonempty) h

/-- A statement that fails leaves the globals as they are, also if it is a declaration. -/
theorem Ready.failed_adds {s : Stmt NodeId} (hx : W.Ready Γ ⟨n, .execute s, m⟩)
    (h : Lox.execute n s m = .failed fault m') : m.Adds [] m' := by
  by_cases hplain : s.plain
  · refine hx.adds_nothing (by rw [Moment.Left, Moment.ending, h]; rfl) ?_
    dsimp only [Moment.declared]
    rw [s.declared_of_plain hplain hx.task.2.2]
    exact ite_self _
  · cases n with
    | zero => cases h
    | succ n =>
        cases s with
        | var name initial =>
            cases initial with
            | none => cases h
            | some e =>
                rcases Run.failed_cases h with h | ⟨_, _, -, ⟨⟩⟩
                obtain ⟨_, hready⟩ := hx.within (.single .initial)
                exact hready.adds_nothing (by rw [Moment.Left, Moment.ending, h]; rfl) rfl
        | function | class_ => cases h
        | _ => exact absurd rfl hplain

end Setting

/-- Of the statements of a program, the first ones are executed, and `finished` are these: they are
all that there are, or the one after them fails. -/
inductive Executes (n : Nat) : List (Stmt NodeId) → List (Stmt NodeId) → Machine → Machine → Prop
  | nil {m : Machine} : Executes n [] [] m m
  | cons {s : Stmt NodeId} {ss finished : List (Stmt NodeId)} {m m₁ m' : Machine}
      (hs : execute n s m = .done .normal m₁) (hss : Executes n ss finished m₁ m') :
      Executes n (s :: ss) (s :: finished) m m'
  | fails {s : Stmt NodeId} {ss : List (Stmt NodeId)} {m m' : Machine} {fault : Diagnostic}
      (hs : execute n s m = .failed fault m') : Executes n (s :: ss) [] m m'

theorem Executes.unique {n : Nat} {program finished finished' : List (Stmt NodeId)}
    {m m' m'' : Machine} (h : Executes n program finished m m')
    (h' : Executes n program finished' m m'') : finished = finished' ∧ m' = m'' := by
  induction h generalizing finished' with
  | nil =>
      cases h'
      exact ⟨rfl, rfl⟩
  | cons hs _ ih =>
      cases h' with
      | cons hs' hss' =>
          cases hs.symm.trans hs'
          obtain ⟨rfl, rfl⟩ := ih hss'
          exact ⟨rfl, rfl⟩
      | fails hs' => cases hs.symm.trans hs'
  | fails hs =>
      cases h' with
      | cons hs' _ => cases hs.symm.trans hs'
      | fails hs' =>
          cases hs.symm.trans hs'
          exact ⟨rfl, rfl⟩

/-- Statements in the outermost scope add the names of those that are executed. -/
theorem Setting.Ready.executeAll_adds {W : Setting} {Γ : List OpenFrame} {n k : Nat}
    {ss : List (Stmt NodeId)} {m m' : Machine} (hx : W.Ready Γ ⟨k, .executeAll ss, m⟩)
    (hle : k ≤ n) (hcurrent : m.current = globalScope)
    (hnormal : ∀ flow m₁, Lox.executeAll k ss m = .done flow m₁ → flow = .normal)
    (h : (Lox.executeAll k ss m).machine? = some m') :
    ∃ finished, Executes n ss finished m m' ∧ m.Adds (finished.filterMap Stmt.binds?) m' ∧
      ∀ flow m₁, Lox.executeAll k ss m = .done flow m₁ → finished = ss := by
  induction ss generalizing k m Γ with
  | nil =>
      cases k with
      | zero => cases h
      | succ k =>
          cases h
          exact ⟨[], .nil, .of_scopes rfl, fun _ _ _ => rfl⟩
  | cons s ss ih =>
      cases k with
      | zero => cases h
      | succ k =>
          obtain ⟨_, hfirst⟩ := hx.within (.single .first)
          have hle : k ≤ n := Nat.le_of_succ_le hle
          rw [Lox.executeAll, Run.bind_apply] at h hnormal ⊢
          cases hs : Lox.execute k s m with
          | done flow m₁ =>
              have hmore := (execute_below_of_le hle s m (by simp [hs])).trans hs
              have hadds := hfirst.execute_adds hcurrent hs
              rw [hs] at h hnormal
              cases flow with
              | normal =>
                  obtain ⟨_, hothers⟩ := hx.within (.single (.others hs))
                  have hcurrent₁ := (((allResume k).execute s).of_done hs).current
                  obtain ⟨finished, hfinished, hnames, hall⟩ :=
                    ih hothers hle (hcurrent₁.trans hcurrent) hnormal h
                  refine ⟨s :: finished, .cons hmore hfinished, ?_, fun flow m₂ hdone => ?_⟩
                  · have hboth := hadds.trans hnames
                    rw [List.filterMap_cons]
                    cases hbinds : s.binds? <;> rw [hbinds] at hboth <;> exact hboth
                  · rw [hall flow m₂ hdone]
              | returned v => cases hnormal (.returned v) m₁ rfl
          | failed fault m₁ =>
              have hmore := (execute_below_of_le hle s m (by simp [hs])).trans hs
              rw [hs] at h
              cases h
              exact ⟨[], .fails hmore, hfirst.failed_adds hs, fun _ _ hdone => by cases hdone⟩
          | unfinished =>
              rw [hs] at h
              cases h

end Lox
