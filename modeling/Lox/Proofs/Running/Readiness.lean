import Lox.Proofs.Running.Fitting

namespace Lox

open Scoping

namespace Setting

variable (W : Setting)

def FitsFlow (scopes : Scopes Value) : Flow → Prop
  | .normal => True
  | .returned v => W.FitsValue scopes v

/-- What a task asks of the machine that it is run on. -/
def FitsTask (Γ : List OpenFrame) (m : Machine) : Task → Prop
  | .evaluate e => W.Chain m.scopes Γ m.current ∧ W.Admits (e.sites Γ) e.tokens
  | .evaluateAll es =>
      W.Chain m.scopes Γ m.current ∧ W.Admits (Expr.sitesAll Γ es) (Expr.tokensAll es)
  | .callValue callee paren vs =>
      W.FitsValue m.scopes callee ∧ (∀ v ∈ vs, W.FitsValue m.scopes v) ∧ W.token paren
  | .invoke callee vs =>
      W.FitsValue m.scopes callee ∧ (∀ v ∈ vs, W.FitsValue m.scopes v) ∧
        callee.arity? = some vs.length
  | .runRoutine r vs =>
      W.FitsRoutine id m.scopes r ∧ (∀ v ∈ vs, W.FitsValue m.scopes v) ∧ r.arity = vs.length
  | .execute s => W.Chain m.scopes Γ m.current ∧ W.Admits (s.sites Γ) s.tokens ∧ s.orderly
  | .executeAll ss =>
      W.Chain m.scopes Γ m.current ∧ W.Admits (Stmt.sitesAll Γ ss) (Stmt.tokensAll ss) ∧
        Stmt.orderlyAll ss
  | .lookUp node name =>
      W.Chain m.scopes Γ m.current ∧ ∃ use, use ≠ Use.write ∧ W.site ⟨node, name, use, Γ⟩
  | .assign node name v =>
      W.Chain m.scopes Γ m.current ∧ W.site ⟨node, name, .write, Γ⟩ ∧ W.FitsValue m.scopes v
  | .bindMethod r receiver =>
      W.FitsRoutine openReceiver m.scopes r ∧ W.FitsValue m.scopes receiver

/-- The scopes that are made from a moment on are among those that are known. -/
def Foresees (x : Moment) : Prop :=
  ∀ y, Within x y → ∀ kind, y.makes? = some kind → W.made kind y.machine.scopes.size

structure Ready (Γ : List OpenFrame) (x : Moment) : Prop where
  fits : W.Fits x.machine
  foresees : W.Foresees x
  task : W.FitsTask Γ x.machine x.task

/-- However the run ends, it is back where it was and its machine fits. If it is done, its value and
its scopes have the property. -/
def SettlesAt {α : Type} (m : Machine) (P : α → Scopes Value → Prop) : Ending α → Prop
  | .done v m' => m.Resumes m' ∧ W.Fits m' ∧ P v m'.scopes
  | .failed _ m' => m.Resumes m' ∧ W.Fits m'
  | .unfinished => True

/-- A statement that is executed in `s` leaves a value, or else the frames after it. -/
def Leaves (after : List OpenFrame) (s : ScopeId) (flow : Flow) (scopes : Scopes Value) : Prop :=
  match flow with
  | .normal => W.Chain scopes after s
  | .returned v => W.FitsValue scopes v

/-- What comes of a moment. -/
def Settles (Γ : List OpenFrame) : Moment → Prop
  | ⟨n, .evaluate e, m⟩ =>
      W.SettlesAt m (fun v scopes => W.FitsValue scopes v) (Lox.evaluate n e m)
  | ⟨n, .evaluateAll es, m⟩ =>
      W.SettlesAt m (fun vs scopes => ∀ v ∈ vs, W.FitsValue scopes v)
        (Lox.evaluateAll n es m)
  | ⟨n, .callValue callee paren vs, m⟩ =>
      W.SettlesAt m (fun v scopes => W.FitsValue scopes v) (Lox.callValue n callee paren vs m)
  | ⟨n, .invoke callee vs, m⟩ =>
      W.SettlesAt m (fun v scopes => W.FitsValue scopes v) (Lox.invoke n callee vs m)
  | ⟨n, .runRoutine r vs, m⟩ =>
      W.SettlesAt m (fun v scopes => W.FitsValue scopes v) (Lox.runRoutine n r vs m)
  | ⟨n, .execute s, m⟩ =>
      W.SettlesAt m (W.Leaves (s.after Γ) m.current) (Lox.execute n s m)
  | ⟨n, .executeAll ss, m⟩ =>
      W.SettlesAt m (fun flow scopes => W.FitsFlow scopes flow) (Lox.executeAll n ss m)
  | ⟨_, .lookUp node name, m⟩ =>
      W.SettlesAt m (fun v scopes => W.FitsValue scopes v) (Run.lookUp node name m)
  | ⟨_, .assign node name v, m⟩ =>
      W.SettlesAt m (fun _ _ => True) (Run.assign node name v m)
  | ⟨_, .bindMethod r receiver, m⟩ =>
      W.SettlesAt m (fun f scopes => W.FitsRoutine id scopes f.routine)
        (Run.bindMethod r receiver m)

end Setting

namespace Setting

variable {W : Setting} {Γ : List OpenFrame} {m m' : Machine} {n : Nat}

theorem Settles.evaluate {e : Expr NodeId} (h : W.Settles Γ ⟨n, .evaluate e, m⟩) :
    W.SettlesAt m (fun v scopes => W.FitsValue scopes v) (Lox.evaluate n e m) := h

theorem Settles.evaluateAll {es : List (Expr NodeId)} (h : W.Settles Γ ⟨n, .evaluateAll es, m⟩) :
    W.SettlesAt m (fun vs scopes => ∀ v ∈ vs, W.FitsValue scopes v) (Lox.evaluateAll n es m) := h

theorem Settles.invoke {callee : Value} {vs : List Value}
    (h : W.Settles Γ ⟨n, .invoke callee vs, m⟩) :
    W.SettlesAt m (fun v scopes => W.FitsValue scopes v) (Lox.invoke n callee vs m) := h

theorem Settles.runRoutine {r : Routine} {vs : List Value}
    (h : W.Settles Γ ⟨n, .runRoutine r vs, m⟩) :
    W.SettlesAt m (fun v scopes => W.FitsValue scopes v) (Lox.runRoutine n r vs m) := h

theorem Settles.execute {s : Stmt NodeId} (h : W.Settles Γ ⟨n, .execute s, m⟩) :
    W.SettlesAt m (W.Leaves (s.after Γ) m.current) (Lox.execute n s m) := h

theorem Settles.executeAll {ss : List (Stmt NodeId)} (h : W.Settles Γ ⟨n, .executeAll ss, m⟩) :
    W.SettlesAt m (fun flow scopes => W.FitsFlow scopes flow) (Lox.executeAll n ss m) := h

theorem Settles.bindMethod {r : Routine} {receiver : Value}
    (h : W.Settles Γ ⟨n, .bindMethod r receiver, m⟩) :
    W.SettlesAt m (fun f scopes => W.FitsRoutine id scopes f.routine)
      (Run.bindMethod r receiver m) := h

theorem Foresees.part {x y : Moment} (h : W.Foresees x) (hpart : Part x y) : W.Foresees y :=
  fun z hz => h z (.head hpart hz)

theorem Chain.resumes (h : W.Chain m.scopes Γ m.current) (hm : m.Resumes m') :
    W.Chain m'.scopes Γ m'.current := by
  rw [hm.current]
  exact h.extends hm.scopes

theorem SettlesAt.of_done {α : Type} {P : α → Scopes Value → Prop} {ending : Ending α} {v : α}
    (h : W.SettlesAt m P ending) (hdone : ending = .done v m') :
    m.Resumes m' ∧ W.Fits m' ∧ P v m'.scopes := by
  subst hdone
  exact h

theorem enterBlock_fits (hm : W.Fits m) (hchain : W.Chain m.scopes Γ m.current)
    (hmade : W.made .block m.scopes.size) :
    W.Fits m.enterBlock ∧ W.Chain m.enterBlock.scopes (openBlock Γ) m.enterBlock.current :=
  ⟨(hm.push _).current _, hchain.push hm.nonempty (by simp) hmade⟩

theorem enterCall_fits {r : Routine} {vs : List Value} (hm : W.Fits m)
    (hchain : W.Chain m.scopes Γ r.scope) (hvs : ∀ v ∈ vs, W.FitsValue m.scopes v)
    (hlength : r.arity = vs.length) (hmade : W.made .call m.scopes.size) :
    W.Fits (m.enterCall r vs) ∧
      W.Chain (m.enterCall r vs).scopes (openCall r.declaration.params Γ)
        (m.enterCall r vs).current := by
  constructor
  · have hpush := hm.push (some r.scope)
    have hvs' : ∀ v ∈ vs, W.FitsValue (m.scopes.push (some r.scope)) v :=
      fun v hv => (hvs v hv).extends (.push _ _)
    exact (hpush.defineAll hvs').current _
  · exact (hchain.push hm.nonempty (by simp) hmade).defineAll (by simp) hlength

theorem bind_fits {r : Routine} {receiver : Value} (hm : W.Fits m)
    (hr : W.FitsRoutine openReceiver m.scopes r) (hreceiver : W.FitsValue m.scopes receiver)
    (hmade : W.made .receiver m.scopes.size) :
    W.Fits (m.bind r receiver) ∧
      W.FitsRoutine id (m.bind r receiver).scopes { r with scope := m.scopes.size } := by
  have hpush := Scopes.Extends.push m.scopes (some r.scope)
  have hdefine := Scopes.Extends.define (m.scopes.push (some r.scope)) m.scopes.size
    Resolution.thisName receiver
  constructor
  · exact ((hm.push _).define _ _ (hreceiver.extends (hpush.trans hdefine))).fresh _
  · obtain ⟨Γ, hchain, hadmits, horderly⟩ := hr
    exact ⟨openReceiver Γ, hchain.pushReceiver hm.nonempty hmade receiver, hadmits, horderly⟩

end Setting

end Lox
