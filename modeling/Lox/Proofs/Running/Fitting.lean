import Lox.Proofs.Running.Scopes
import Lox.Proofs.Running.Tasks
import Lox.Proofs.Scoping.Tokens
import Mathlib.Data.List.Forall2

namespace Lox

open Scoping

/-- What is known of a run from outside: which scopes were made by what, and which references and
tokens the programs are made of. -/
structure Setting where
  made : FrameKind → ScopeId → Prop
  site : Site → Prop
  token : Token → Prop

/-- The references and tokens of one program. -/
def Setting.ofProgram (program : List (Stmt NodeId)) : Setting where
  made _ _ := False
  site site := site ∈ Stmt.sitesAll [] program
  token t := t ∈ Stmt.tokensAll program

namespace Setting

variable (W : Setting)

/-- The sites and tokens are among those of the programs. -/
structure Admits (sites : List Site) (tokens : List Token) : Prop where
  sites : ∀ site ∈ sites, W.site site
  tokens : ∀ t ∈ tokens, W.token t

/-- The scope was made for a frame of this kind, and binds the names that are ready in it. One that
was made for a receiver holds it. -/
structure FitsFrame (scopes : Scopes Value) (F : OpenFrame) (s : ScopeId) : Prop where
  made : W.made F.kind s
  receiver : F.kind = .receiver → (scopes.own? s Resolution.thisName).isSome
  names : ∀ name, F.names.find? name = some true → (scopes.own? s name).isSome

/-- The scopes from `s` outwards fit the open frames. -/
def Chain (scopes : Scopes Value) : List OpenFrame → ScopeId → Prop
  | [], s => s = globalScope
  | F :: Γ, s =>
      W.FitsFrame scopes F s ∧ ∃ outer, scopes.enclosing? s = some outer ∧ Chain scopes Γ outer

/-- The scope of a function fits the frames around its declaration. Those of a method are known
but for the frame that holds the receiver. -/
def FitsRoutine (around : List OpenFrame → List OpenFrame) (scopes : Scopes Value)
    (r : Routine) : Prop :=
  ∃ Γ, W.Chain scopes Γ r.scope ∧
    W.Admits (r.declaration.sites (around Γ)) r.declaration.tokens ∧ r.declaration.orderly

def FitsClass (scopes : Scopes Value) (c : Class) : Prop :=
  ∀ name r, c.methods.find? name = some r → W.FitsRoutine openReceiver scopes r

def FitsValue (scopes : Scopes Value) : Value → Prop
  | .function f => W.FitsRoutine id scopes f.routine
  | .class_ c => W.FitsClass scopes c
  | .instance_ _ c => W.FitsClass scopes c
  | _ => True

/-- All that is stored fits, and the table has the distances of all sites. -/
structure Fits (m : Machine) : Prop where
  nonempty : 0 < m.scopes.size
  outermost : m.scopes.enclosing? globalScope = none
  bound : ∀ s name v, m.scopes.own? s name = some v → W.FitsValue m.scopes v
  fields : ∀ (inst : Identity) (fields : Bindings Value) name v,
    m.instances[inst]? = some fields → fields.find? name = some v → W.FitsValue m.scopes v
  hops : ∀ site, W.site site → m.hops[site.node]? = site.distance?

end Setting

/-- All that was stored is still stored, and the run is back where it was. -/
structure Machine.Resumes (m m' : Machine) : Prop where
  scopes : m.scopes.Extends m'.scopes
  hops : m'.hops = m.hops
  current : m'.current = m.current
  depth : m'.depth = m.depth

namespace Machine.Resumes

variable {m m' m'' : Machine}

theorem refl (m : Machine) : m.Resumes m := ⟨.refl _, rfl, rfl, rfl⟩

theorem trans (h : m.Resumes m') (h' : m'.Resumes m'') : m.Resumes m'' :=
  ⟨h.scopes.trans h'.scopes, h'.hops.trans h.hops, h'.current.trans h.current,
    h'.depth.trans h.depth⟩

end Machine.Resumes

namespace Setting

variable {W : Setting} {scopes scopes' : Scopes Value} {Γ : List OpenFrame} {s : ScopeId}

/-- More is known in the second setting. -/
structure Le (W W' : Setting) : Prop where
  made : ∀ kind scope, W.made kind scope → W'.made kind scope
  site : ∀ site, W.site site → W'.site site
  token : ∀ t, W.token t → W'.token t

theorem Admits.mono {sites sites' : List Site} {tokens tokens' : List Token}
    (h : W.Admits sites tokens) (hsites : sites' ⊆ sites) (htokens : tokens' ⊆ tokens) :
    W.Admits sites' tokens' :=
  ⟨fun site hsite => h.sites site (hsites hsite), fun t ht => h.tokens t (htokens ht)⟩

theorem Chain.lt_size (h : W.Chain scopes Γ s) (hnonempty : 0 < scopes.size) : s < scopes.size := by
  cases Γ with
  | nil => exact h ▸ hnonempty
  | cons F Γ =>
      obtain ⟨_, outer, houter, _⟩ := h
      exact Scopes.lt_size_of_enclosing? houter

theorem Chain.extends (h : W.Chain scopes Γ s) (hscopes : scopes.Extends scopes') :
    W.Chain scopes' Γ s := by
  induction Γ generalizing s with
  | nil => exact h
  | cons F Γ ih =>
      obtain ⟨hF, outer, houter, hchain⟩ := h
      refine ⟨⟨hF.made, fun hkind => hscopes.own s _ (hF.receiver hkind),
        fun name hname => hscopes.own s name (hF.names name hname)⟩, outer, ?_, ih hchain⟩
      rw [hscopes.enclosing s (Scopes.lt_size_of_enclosing? houter), houter]

theorem FitsRoutine.extends {around : List OpenFrame → List OpenFrame} {r : Routine}
    (h : W.FitsRoutine around scopes r) (hscopes : scopes.Extends scopes') :
    W.FitsRoutine around scopes' r := by
  obtain ⟨Γ, hchain, hadmits, horderly⟩ := h
  exact ⟨Γ, hchain.extends hscopes, hadmits, horderly⟩

theorem FitsValue.extends {v : Value} (h : W.FitsValue scopes v)
    (hscopes : scopes.Extends scopes') : W.FitsValue scopes' v := by
  cases v with
  | function f => exact FitsRoutine.extends h hscopes
  | class_ c | instance_ _ c => exact fun name r hr => (h name r hr).extends hscopes
  | _ => trivial

theorem Admits.le {W' : Setting} {sites : List Site} {tokens : List Token}
    (h : W.Admits sites tokens) (hW : W.Le W') : W'.Admits sites tokens :=
  ⟨fun site hsite => hW.site site (h.sites site hsite),
    fun t ht => hW.token t (h.tokens t ht)⟩

theorem Chain.le {W' : Setting} (h : W.Chain scopes Γ s) (hW : W.Le W') :
    W'.Chain scopes Γ s := by
  induction Γ generalizing s with
  | nil => exact h
  | cons F Γ ih =>
      obtain ⟨hF, outer, houter, hchain⟩ := h
      exact ⟨⟨hW.made _ _ hF.made, hF.receiver, hF.names⟩, outer, houter, ih hchain⟩

theorem FitsRoutine.le {W' : Setting} {around : List OpenFrame → List OpenFrame} {r : Routine}
    (h : W.FitsRoutine around scopes r) (hW : W.Le W') : W'.FitsRoutine around scopes r := by
  obtain ⟨Γ, hchain, hadmits, horderly⟩ := h
  exact ⟨Γ, hchain.le hW, hadmits.le hW, horderly⟩

theorem FitsValue.le {W' : Setting} {v : Value} (h : W.FitsValue scopes v) (hW : W.Le W') :
    W'.FitsValue scopes v := by
  cases v with
  | function f => exact FitsRoutine.le h hW
  | class_ c | instance_ _ c => exact fun name r hr => (h name r hr).le hW
  | _ => trivial

/-- The scope that lies as far out as a frame belongs to that frame. -/
theorem Chain.ancestor? {distance : Nat} {F : OpenFrame} (h : W.Chain scopes Γ s)
    (hF : Γ[distance]? = some F) :
    ∃ scope, scopes.ancestor? s distance = some scope ∧ W.FitsFrame scopes F scope := by
  induction Γ generalizing s distance with
  | nil => simp at hF
  | cons G Γ ih =>
      obtain ⟨hG, outer, houter, hchain⟩ := h
      cases distance with
      | zero =>
          cases hF
          exact ⟨s, rfl, hG⟩
      | succ distance =>
          obtain ⟨scope, hscope, hrest⟩ := ih hchain (by simpa using hF)
          exact ⟨scope, by rw [Scopes.ancestor?, houter, Option.bind_some, hscope], hrest⟩

theorem Chain.ancestor?_ne {distance : Nat} (h : W.Chain scopes Γ s)
    (houtermost : scopes.enclosing? globalScope = none) (hlt : distance < Γ.length) :
    scopes.ancestor? s distance ≠ some globalScope := by
  induction Γ generalizing s distance with
  | nil => exact absurd hlt (Nat.not_lt_zero _)
  | cons F Γ ih =>
      obtain ⟨-, outer, houter, hchain⟩ := h
      cases distance with
      | zero =>
          intro heq
          cases heq
          rw [houtermost] at houter
          cases houter
      | succ distance =>
          rw [Scopes.ancestor?, houter, Option.bind_some]
          exact ih hchain (Nat.lt_of_succ_lt_succ hlt)

theorem Chain.outwards (h : W.Chain scopes Γ s)
    (houtermost : scopes.enclosing? globalScope = none) :
    ∃ inner, scopes.outwards s = inner ++ [globalScope] ∧ globalScope ∉ inner ∧
      List.Forall₂ (W.FitsFrame scopes) Γ inner := by
  induction Γ generalizing s with
  | nil =>
      rw [show s = globalScope from h]
      exact ⟨[], Scopes.outwards_of_none houtermost, by simp, .nil⟩
  | cons F Γ ih =>
      obtain ⟨hF, outer, houter, hchain⟩ := h
      obtain ⟨inner, hinner, hnotin, hkinds⟩ := ih hchain
      have hs : globalScope ≠ s := by
        rintro rfl
        rw [houtermost] at houter
        cases houter
      refine ⟨s :: inner, ?_, by simp [hs, hnotin], .cons hF hkinds⟩
      rw [Scopes.outwards_of_some houter, hinner, List.cons_append]

theorem find?_insert_eq_true {frame : Resolution.Frame} {name other : String} {ready : Bool}
    (h : (frame.insert name ready).find? other = some true) :
    (name = other ∧ ready = true) ∨ frame.find? other = some true := by
  rw [Bindings.find?_insert] at h
  split at h
  · rename_i heq
    cases h
    exact .inl ⟨heq, rfl⟩
  · exact .inr h

/-- A frame may get a name that its scope binds, and any name that is not ready yet. -/
theorem Chain.insert {kind : FrameKind} {names : Resolution.Frame} {name : String} {ready : Bool}
    (h : W.Chain scopes (⟨kind, names⟩ :: Γ) s)
    (hname : ready = true → (scopes.own? s name).isSome) :
    W.Chain scopes (⟨kind, names.insert name ready⟩ :: Γ) s := by
  obtain ⟨hF, houter⟩ := h
  refine ⟨⟨hF.made, hF.receiver, ?_⟩, houter⟩
  intro other hother
  rcases find?_insert_eq_true hother with ⟨rfl, hready⟩ | hother
  · exact hname hready
  · exact hF.names other hother

theorem Chain.declare (h : W.Chain scopes Γ s) (name : Token) :
    W.Chain scopes (bind name false Γ) s := by
  cases Γ with
  | nil => exact h
  | cons F Γ => exact Chain.insert h (by simp)

theorem Chain.introduce (h : W.Chain scopes Γ s) {name : Token}
    (hname : (scopes.own? s name.lexeme).isSome) : W.Chain scopes (introduce name Γ) s := by
  have h := h.declare name
  cases Γ with
  | nil => exact h
  | cons F Γ => exact Chain.insert h fun _ => hname

theorem enclosing?_push_of_lt {outer : ScopeId} (h : outer < scopes.size) :
    (scopes.push (some outer)).enclosing? scopes.size = some outer := by
  rw [Scopes.enclosing?_push, if_pos rfl, Option.filter_some, if_pos (decide_eq_true h)]

theorem Chain.push {kind : FrameKind} (h : W.Chain scopes Γ s) (hnonempty : 0 < scopes.size)
    (hkind : kind ≠ .receiver) (hmade : W.made kind scopes.size) :
    W.Chain (scopes.push (some s)) (⟨kind, .empty⟩ :: Γ) scopes.size :=
  ⟨⟨hmade, fun h => absurd h hkind, by simp⟩, s,
    enclosing?_push_of_lt (h.lt_size hnonempty), h.extends (.push scopes _)⟩

theorem Chain.pushReceiver (h : W.Chain scopes Γ s) (hnonempty : 0 < scopes.size)
    (hmade : W.made .receiver scopes.size) (receiver : Value) :
    W.Chain ((scopes.push (some s)).define scopes.size Resolution.thisName receiver)
      (openReceiver Γ) scopes.size := by
  have hthis : (((scopes.push (some s)).define scopes.size Resolution.thisName receiver).own?
      scopes.size Resolution.thisName).isSome := by
    rw [Scopes.own?_define_self (by simp)]
    rfl
  refine ⟨⟨hmade, fun _ => hthis, ?_⟩, s, ?_, h.extends ((Scopes.Extends.push _ _).trans
    (.define _ _ _ _))⟩
  · intro name hname
    rcases find?_insert_eq_true hname with ⟨rfl, _⟩ | hname
    · exact hthis
    · cases hname
  · rw [Scopes.enclosing?_define]
    exact enclosing?_push_of_lt (h.lt_size hnonempty)

theorem Chain.defineAll {params : List Token} {vs : List Value} (h : W.Chain scopes Γ s)
    (hs : s < scopes.size) (hlength : params.length = vs.length) :
    W.Chain (scopes.defineAll s params vs)
      (params.foldl (fun Γ param => Scoping.introduce param Γ) Γ) s := by
  induction params generalizing scopes vs Γ with
  | nil => exact h
  | cons param params ih =>
      cases vs with
      | nil => cases hlength
      | cons v vs =>
          have hname : ((scopes.define s param.lexeme v).own? s param.lexeme).isSome := by
            rw [Scopes.own?_define_self hs]
            rfl
          have hchain := (h.extends (.define scopes s param.lexeme v)).introduce hname
          exact ih hchain (by simpa using hs) (Nat.succ.inj hlength)

variable {m : Machine}

theorem Fits.current (h : W.Fits m) (current : ScopeId) : W.Fits { m with current } :=
  ⟨h.nonempty, h.outermost, h.bound, h.fields, h.hops⟩

theorem Fits.depth (h : W.Fits m) (depth : Nat) : W.Fits { m with depth } :=
  ⟨h.nonempty, h.outermost, h.bound, h.fields, h.hops⟩

theorem Fits.fresh (h : W.Fits m) (fresh : Identity) : W.Fits { m with fresh } :=
  ⟨h.nonempty, h.outermost, h.bound, h.fields, h.hops⟩

theorem Fits.push (h : W.Fits m) (outer : Option ScopeId) :
    W.Fits { m with scopes := m.scopes.push outer } := by
  have hextends := Scopes.Extends.push m.scopes outer
  refine ⟨by simp, ?_, ?_, ?_, h.hops⟩
  · dsimp only
    rw [hextends.enclosing globalScope h.nonempty, h.outermost]
  · intro s name v hv
    rw [Scopes.own?_push] at hv
    exact (h.bound s name v hv).extends hextends
  · intro inst fields name v hfields hv
    exact (h.fields inst fields name v hfields hv).extends hextends

theorem Fits.define (h : W.Fits m) (s : ScopeId) (name : String) {v : Value}
    (hv : W.FitsValue (m.scopes.define s name v) v) :
    W.Fits { m with scopes := m.scopes.define s name v } := by
  have hextends := Scopes.Extends.define m.scopes s name v
  refine ⟨by simpa using h.nonempty, by simpa using h.outermost, ?_, ?_, h.hops⟩
  · intro s' name' v' hv'
    dsimp only at hv'
    rw [Scopes.own?_define] at hv'
    split at hv'
    · cases hv'
      exact hv
    · exact (h.bound s' name' v' hv').extends hextends
  · intro inst fields name' v' hfields hv'
    exact (h.fields inst fields name' v' hfields hv').extends hextends

theorem Fits.defineAll {params : List Token} {vs : List Value} {s : ScopeId} (h : W.Fits m)
    (hvs : ∀ v ∈ vs, W.FitsValue m.scopes v) :
    W.Fits { m with scopes := m.scopes.defineAll s params vs } := by
  induction params generalizing m vs with
  | nil => exact h
  | cons param params ih =>
      cases vs with
      | nil => exact h
      | cons v vs =>
          have hextends := Scopes.Extends.define m.scopes s param.lexeme v
          have hv := (hvs v List.mem_cons_self).extends hextends
          exact ih (h.define s param.lexeme hv) fun v' hv' =>
            (hvs v' (List.mem_cons_of_mem _ hv')).extends hextends

theorem extends_defineAll (scopes : Scopes Value) (s : ScopeId) (params : List Token)
    (vs : List Value) : scopes.Extends (scopes.defineAll s params vs) := by
  induction params generalizing scopes vs with
  | nil => exact .refl scopes
  | cons param params ih =>
      cases vs with
      | nil => exact .refl scopes
      | cons v vs => exact (Scopes.Extends.define scopes s param.lexeme v).trans (ih _ _)

theorem extends_enterCall (m : Machine) (r : Routine) (vs : List Value) :
    m.scopes.Extends (m.enterCall r vs).scopes :=
  (Scopes.Extends.push m.scopes _).trans (extends_defineAll _ _ _ _)

theorem extends_bind (m : Machine) (r : Routine) (receiver : Value) :
    m.scopes.Extends (m.bind r receiver).scopes :=
  (Scopes.Extends.push m.scopes _).trans (.define _ _ _ _)

theorem Fits.addInstance (h : W.Fits m) : W.Fits m.addInstance := by
  refine ⟨h.nonempty, h.outermost, h.bound, ?_, h.hops⟩
  intro inst fields name v hfields hv
  rw [Machine.addInstance, Array.getElem?_push] at hfields
  split at hfields
  · cases hfields
    cases hv
  · exact h.fields inst fields name v hfields hv

theorem Fits.setField (h : W.Fits m) (inst : Identity) (name : String) {v : Value}
    (hv : W.FitsValue m.scopes v) :
    W.Fits { m with instances := m.instances.modify inst (·.insert name v) } := by
  refine ⟨h.nonempty, h.outermost, h.bound, ?_, h.hops⟩
  intro inst' fields name' v' hfields hv'
  dsimp only at hfields
  rw [Array.getElem?_modify] at hfields
  split at hfields
  · obtain ⟨old, hold, rfl⟩ := Option.map_eq_some_iff.mp hfields
    rw [Bindings.find?_insert] at hv'
    split at hv'
    · cases hv'
      exact hv
    · exact h.fields inst' old name' v' hold hv'
  · exact h.fields inst' fields name' v' hfields hv'

end Setting

end Lox
