import Lox.Proofs.Likeness.Respelling
import Lox.Proofs.Likeness.Runs
import Lox.Proofs.Running.Distances

namespace Lox

open Scoping

theorem Setting.Ready.sure {W : Setting} {Γ : List OpenFrame} {x : Moment} (h : W.Ready Γ x) :
    x.Sure := by
  intro y hy node name htask distance hhop
  obtain ⟨Γ', hready⟩ := h.within hy
  have hfits := hready.task
  rw [htask] at hfits
  obtain ⟨hchain, use, huse, hsite⟩ := hfits
  obtain ⟨scope, hscope, hbound⟩ := hready.fits.ancestor? hsite hchain hhop
  rw [Scopes.getAt?, hscope]
  exact hbound huse

/-- What a correspondence has to know of the sites and tokens of a setting to leave them alone. -/
structure Correspondence.Keeps (C : Correspondence) (W : Setting) : Prop where
  known : ∀ site, W.site site → C.known site.node
  hops : ∀ site, W.site site → C.hops site.node = site.distance?
  token : ∀ t, W.token t → C.token t t

namespace Correspondence

variable {C : Correspondence} {W : Setting} {m : Machine} {Γ : List OpenFrame} {s : ScopeId}

theorem spelled_unmarked (n : Nat) (name : String) :
    C.Spelled ((List.replicate n false).headD false) name name := by
  cases n <;> exact spelled_false_iff.mpr rfl

/-- Every token of the setting corresponds to what becomes of it. -/
structure Sends (C : Correspondence) (f : Token → Token) (W : Setting) : Prop where
  known : ∀ site, W.site site → C.known site.node
  hops : ∀ site, W.site site → C.hops site.node = site.distance?
  token : ∀ t, W.token t → C.token t (f t)

theorem Sends.allows {f : Token → Token} (h : C.Sends f W) (base : Nat) :
    C.likeness.Allows (.everywhere f) (fun d => List.replicate (base + d) false) base W := by
  have hspelled : ∀ t, W.token t → ∀ n,
      C.Spelled ((List.replicate n false).headD false) t.lexeme (f t).lexeme := by
    intro t ht n
    rw [C.lexeme_eq (h.token t ht)]
    exact spelled_unmarked n _
  refine ⟨fun _ => rfl, h.token, ?_, fun t d ht => hspelled t ht _,
    fun t d ht _ => ⟨h.token t ht, hspelled t ht _⟩⟩
  intro site d hsite hname hframes
  refine ⟨h.known site hsite, fun _ => h.token site.name hname, fun distance hdistance => ?_⟩
  rw [h.hops site hsite] at hdistance
  have hlt := Site.distance?_lt hdistance
  rw [hframes] at hlt
  refine ⟨false, by rw [List.getElem?_replicate, if_pos hlt], ?_⟩
  exact spelled_false_iff.mpr (C.lexeme_eq (h.token site.name hname))

theorem Keeps.likeness (h : C.Keeps W) : C.likeness.Keeps W :=
  ⟨Sends.allows ⟨h.known, h.hops, h.token⟩,
    fun t n ht => ⟨h.token t ht, spelled_unmarked n _⟩⟩

end Correspondence

/-- One name stands for another, at the distances of a table. All tokens at which a fault can be
found stay the same. -/
def Correspondence.ofNewName (hops : Hops) (known : NodeId → Prop) (old new : String)
    (hold : old ≠ Resolution.thisName) (hnew : new ≠ Resolution.thisName) : Correspondence where
  old
  new
  hops node := hops[node]?
  known
  token t t' := t' = t
  kind_eq := by
    rintro t _ rfl
    rfl
  lexeme_eq := by
    rintro t _ rfl
    rfl
  this_ne_old _ := hold.symm
  this_ne_new _ := hnew.symm

theorem Correspondence.ofNewName_keeps {hops : Hops} {W : Setting} {old new : String}
    {hold : old ≠ Resolution.thisName} {hnew : new ≠ Resolution.thisName}
    (h : ∀ site, W.site site → hops[site.node]? = site.distance?) :
    (ofNewName hops (fun node => ∃ site, W.site site ∧ site.node = node) old new hold hnew).Keeps
      W :=
  ⟨fun site hsite => ⟨site, hsite, rfl⟩, h, fun _ _ => rfl⟩

/-- What the scopes themselves tell, if no frame is marked. -/
def Plan.ofScopes (scopes : Scopes Value) : Plan :=
  (List.range scopes.size).map fun s => ⟨false, scopes.enclosing? s⟩

theorem Plan.length_ofScopes (scopes : Scopes Value) : (ofScopes scopes).length = scopes.size := by
  simp [ofScopes]

theorem Plan.getElem?_ofScopes {scopes : Scopes Value} {s : ScopeId} {seat : Seat} :
    (ofScopes scopes)[s]? = some seat ↔ s < scopes.size ∧ seat = ⟨false, scopes.enclosing? s⟩ := by
  rw [ofScopes, List.getElem?_map]
  by_cases hs : s < scopes.size
  · simp [hs, eq_comm]
  · simp [hs]

namespace Setting

variable {C : Correspondence} {W : Setting} {m : Machine} {Γ : List OpenFrame} {s : ScopeId}

theorem Chain.leads {scopes : Scopes Value} (h : W.Chain scopes Γ s) :
    (Plan.ofScopes scopes).Leads (List.replicate Γ.length false) s := by
  induction Γ generalizing s with
  | nil => exact h
  | cons F Γ ih =>
      obtain ⟨-, outer, houter, hchain⟩ := h
      refine ⟨outer, ?_, ih hchain⟩
      rw [Plan.getElem?_ofScopes, houter]
      exact ⟨Scopes.lt_size_of_enclosing? houter, rfl⟩

theorem FitsRoutine.alike {scopes : Scopes Value} {r : Routine}
    {around : List OpenFrame → List OpenFrame} {marks : List Bool → List Bool} (hC : C.Keeps W)
    (haround : ∀ Γ, List.replicate (around Γ).length false =
      marks (List.replicate Γ.length false)) (h : W.FitsRoutine around scopes r) :
    C.RoutineAlike (.ofScopes scopes) marks r r := by
  obtain ⟨Γ, hchain, hadmits, horderly⟩ := h
  refine ⟨rfl, rfl, _, hchain.leads, ?_⟩
  rw [← haround]
  exact hC.likeness.function rfl hadmits horderly

theorem FitsClass.alike {scopes : Scopes Value} {c : Class} (hC : C.Keeps W)
    (h : W.FitsClass scopes c) : C.ClassAlike (.ofScopes scopes) c c := by
  refine ⟨rfl, rfl, fun name => ?_⟩
  cases hmethod : c.methods.find? name with
  | none => exact .none
  | some r => exact .some ((h name r hmethod).alike hC fun _ => rfl)

theorem FitsValue.alike {scopes : Scopes Value} {v : Value} (hC : C.Keeps W)
    (h : W.FitsValue scopes v) : C.ValueAlike (.ofScopes scopes) v v := by
  cases v with
  | nil => exact .nil
  | boolean b => exact .boolean b
  | number n => exact .number n
  | string s => exact .string s
  | native f => exact .native f
  | function f => exact .function rfl (FitsRoutine.alike hC (fun _ => rfl) h)
  | class_ c => exact .class_ (FitsClass.alike hC h)
  | instance_ inst c => exact .instance_ inst (FitsClass.alike hC h)

/-- A machine corresponds to itself, also if it knows more distances the second time. -/
theorem Fits.matches (h : W.Fits m) (hC : C.Keeps W) {hops : Hops}
    (hhops : ∀ node, C.known node → m.hops[node]? = C.hops node ∧ hops[node]? = C.hops node) :
    C.Matches (.ofScopes m.scopes) m { m with hops } := by
  have hlength := Plan.length_ofScopes m.scopes
  refine ⟨hlength.symm, hlength.symm, ?_, ?_, ?_, rfl, rfl, ?_, hhops, rfl, rfl, rfl, rfl, rfl,
    rfl⟩
  · rw [Plan.getElem?_ofScopes, h.outermost]
    exact ⟨h.nonempty, rfl⟩
  · intro s seat hs
    rw [(Plan.getElem?_ofScopes.mp hs).2]
    exact ⟨rfl, rfl⟩
  · intro s seat hs name name' hname
    rw [(Plan.getElem?_ofScopes.mp hs).2] at hname
    rw [Correspondence.spelled_false_iff.mp hname]
    cases hv : m.scopes.own? s name with
    | none => exact .none
    | some v => exact .some ((h.bound s name v hv).alike hC)
  · intro inst name
    dsimp only
    cases hfields : m.instances[inst]? with
    | none => exact .none
    | some fields =>
        rw [Option.bind_some]
        cases hv : fields.find? name with
        | none => exact .none
        | some v => exact .some ((h.fields inst fields name v hfields hv).alike hC)

end Setting

end Lox
