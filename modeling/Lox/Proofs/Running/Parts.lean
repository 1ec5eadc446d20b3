import Lox.Proofs.Running.Readiness

namespace Lox.Setting

open Scoping

variable {W : Setting} {Γ : List OpenFrame} {m m' : Machine} {n : Nat} {x y : Moment}

/-- All parts of a moment that are ready settle. -/
def PartsSettle (W : Setting) (x : Moment) : Prop :=
  ∀ y Γ, Part x y → W.Ready Γ y → W.Settles Γ y

variable {task : Task}

/-- An expression that a task begins with is ready if its text is part of the text of the task. -/
theorem Ready.evaluate {e : Expr NodeId} (hx : W.Ready Γ ⟨n + 1, task, m⟩)
    (hpart : Part ⟨n + 1, task, m⟩ ⟨n, .evaluate e, m⟩) {Γ' : List OpenFrame}
    (hchain : W.Chain m.scopes Γ' m.current) (hadmits : W.Admits (e.sites Γ') e.tokens) :
    W.Ready Γ' ⟨n, .evaluate e, m⟩ :=
  ⟨hx.fits, hx.foresees.part hpart, hchain, hadmits⟩

theorem PartsSettle.evaluated {e : Expr NodeId} {v : Value} (ih : W.PartsSettle x)
    (hpart : Part x ⟨n, .evaluate e, m⟩) (hready : W.Ready Γ ⟨n, .evaluate e, m⟩)
    (h : Lox.evaluate n e m = .done v m') :
    m.Resumes m' ∧ W.Fits m' ∧ W.FitsValue m'.scopes v := by
  exact (ih _ Γ hpart hready).evaluate.of_done h

theorem PartsSettle.evaluatedAll {es : List (Expr NodeId)} {vs : List Value}
    (ih : W.PartsSettle x) (hpart : Part x ⟨n, .evaluateAll es, m⟩)
    (hready : W.Ready Γ ⟨n, .evaluateAll es, m⟩) (h : Lox.evaluateAll n es m = .done vs m') :
    m.Resumes m' ∧ W.Fits m' ∧ ∀ v ∈ vs, W.FitsValue m'.scopes v := by
  exact (ih _ Γ hpart hready).evaluateAll.of_done h

theorem PartsSettle.executed {s : Stmt NodeId} (ih : W.PartsSettle x)
    (hpart : Part x ⟨n, .execute s, m⟩) (hready : W.Ready Γ ⟨n, .execute s, m⟩)
    (h : Lox.execute n s m = .done .normal m') :
    m.Resumes m' ∧ W.Fits m' ∧ W.Chain m'.scopes (s.after Γ) m'.current := by
  obtain ⟨hresumes, hfits, hchain⟩ := (ih _ Γ hpart hready).execute.of_done h
  exact ⟨hresumes, hfits, hresumes.current ▸ hchain⟩

theorem Ready.first {s : Stmt NodeId} {ss : List (Stmt NodeId)}
    (hx : W.Ready Γ ⟨n + 1, .executeAll (s :: ss), m⟩) : W.Ready Γ ⟨n, .execute s, m⟩ := by
  obtain ⟨hfits, hforesees, hchain, hadmits, horderly⟩ := hx
  have horderly : s.orderly ∧ Stmt.orderlyAll ss := by simpa [Stmt.orderlyAll] using horderly
  exact ⟨hfits, hforesees.part .first, hchain,
    hadmits.mono (by simp [Stmt.sitesAll]) (by simp [Stmt.tokensAll]), horderly.1⟩

theorem fitsClass_initializer {scopes : Scopes Value} {c : Class} {r : Routine}
    (hc : W.FitsClass scopes c) (h : c.initializer? = some r) :
    W.FitsRoutine openReceiver scopes r :=
  hc _ r h

theorem ready_of_expression_part {e : Expr NodeId}
    (hx : W.Ready Γ ⟨n + 1, .evaluate e, m⟩) (ih : W.PartsSettle ⟨n + 1, .evaluate e, m⟩)
    (hpart : Part ⟨n + 1, .evaluate e, m⟩ y) : W.Ready Γ y := by
  have hforesees := hx.foresees.part hpart
  obtain ⟨hfits, -, hchain, hadmits⟩ := id hx
  cases id hpart with
  | grouping | operand | left | deciding | assigned | callee | object | holder =>
      exact hx.evaluate hpart hchain
        (hadmits.mono (by simp [Expr.sites]) (by simp [Expr.tokens]))
  | right h =>
      have hleft := hx.evaluate .left hchain
        (hadmits.mono (by simp [Expr.sites]) (by simp [Expr.tokens]))
      obtain ⟨hresumes, hfits', -⟩ := ih.evaluated .left hleft h
      exact ⟨hfits', hforesees, hchain.resumes hresumes,
        hadmits.mono (by simp [Expr.sites]) (by simp [Expr.tokens])⟩
  | undecided h =>
      have hleft := hx.evaluate .deciding hchain
        (hadmits.mono (by simp [Expr.sites]) (by simp [Expr.tokens]))
      obtain ⟨hresumes, hfits', -⟩ := ih.evaluated .deciding hleft h
      exact ⟨hfits', hforesees, hchain.resumes hresumes,
        hadmits.mono (by simp [Expr.sites]) (by simp [Expr.tokens])⟩
  | var => exact ⟨hfits, hforesees, hchain, .read, by simp, hadmits.sites _ (by simp [Expr.sites])⟩
  | this =>
      exact ⟨hfits, hforesees, hchain, .receiver, by simp, hadmits.sites _ (by simp [Expr.sites])⟩
  | assign h =>
      have hvalue := hx.evaluate .assigned hchain
        (hadmits.mono (by simp [Expr.sites]) (by simp [Expr.tokens]))
      obtain ⟨hresumes, hfits', hv⟩ := ih.evaluated .assigned hvalue h
      exact ⟨hfits', hforesees, hchain.resumes hresumes,
        hadmits.sites _ (by simp [Expr.sites]), hv⟩
  | arguments h =>
      have hcallee := hx.evaluate .callee hchain
        (hadmits.mono (by simp [Expr.sites]) (by simp [Expr.tokens]))
      obtain ⟨hresumes, hfits', -⟩ := ih.evaluated .callee hcallee h
      exact ⟨hfits', hforesees, hchain.resumes hresumes,
        hadmits.mono (by simp [Expr.sites]) (by simp [Expr.tokens])⟩
  | call h hs =>
      have hcallee := hx.evaluate .callee hchain
        (hadmits.mono (by simp [Expr.sites]) (by simp [Expr.tokens]))
      obtain ⟨hresumes, hfits', hv⟩ := ih.evaluated .callee hcallee h
      have harguments : W.Ready Γ ⟨n, .evaluateAll _, _⟩ :=
        ⟨hfits', hx.foresees.part (.arguments h), hchain.resumes hresumes,
          hadmits.mono (by simp [Expr.sites]) (by simp [Expr.tokens])⟩
      obtain ⟨hresumes', hfits'', hvs⟩ := ih.evaluatedAll (.arguments h) harguments hs
      exact ⟨hfits'', hforesees, hv.extends hresumes'.scopes, hvs,
        hadmits.tokens _ (by simp [Expr.tokens])⟩
  | method h _ hmethod =>
      have hobject := hx.evaluate .object hchain
        (hadmits.mono (by simp [Expr.sites]) (by simp [Expr.tokens]))
      obtain ⟨_, hfits', hv⟩ := ih.evaluated .object hobject h
      exact ⟨hfits', hforesees, hv _ _ hmethod, hv⟩
  | held h =>
      have hobject := hx.evaluate .holder hchain
        (hadmits.mono (by simp [Expr.sites]) (by simp [Expr.tokens]))
      obtain ⟨hresumes, hfits', -⟩ := ih.evaluated .holder hobject h
      exact ⟨hfits', hforesees, hchain.resumes hresumes,
        hadmits.mono (by simp [Expr.sites]) (by simp [Expr.tokens])⟩

theorem ready_of_call_part {callee : Value} {vs : List Value}
    (hx : W.Ready Γ ⟨n + 1, .invoke callee vs, m⟩) (hpart : Part ⟨n + 1, .invoke callee vs, m⟩ y) :
    W.Ready Γ y := by
  have hforesees := hx.foresees.part hpart
  obtain ⟨hfits, -, hcallee, hvs, harity⟩ := id hx
  cases id hpart with
  | function => exact ⟨hfits, hforesees, hcallee, hvs, Option.some.inj harity⟩
  | receiver h => exact ⟨hfits.addInstance, hforesees, fitsClass_initializer hcallee h, hcallee⟩
  | @initializer _ _ c r _ h =>
      have hmade : W.made .receiver m.scopes.size :=
        hx.foresees _ (.single (.receiver h)) .receiver rfl
      have hr : W.FitsRoutine openReceiver m.addInstance.scopes r := fitsClass_initializer hcallee h
      have hreceiver : W.FitsValue m.addInstance.scopes (.instance_ m.instances.size c) := hcallee
      obtain ⟨hfits', hr'⟩ := bind_fits hfits.addInstance hr hreceiver hmade
      have hextends := extends_bind m.addInstance r (.instance_ m.instances.size c)
      have harity : r.arity = vs.length := by simpa [Value.arity?, h] using harity
      exact ⟨hfits', hforesees, hr', fun v hv => (hvs v hv).extends hextends, harity⟩

theorem ready_of_statement_part {s : Stmt NodeId} (hx : W.Ready Γ ⟨n + 1, .execute s, m⟩)
    (ih : W.PartsSettle ⟨n + 1, .execute s, m⟩) (hpart : Part ⟨n + 1, .execute s, m⟩ y) :
    ∃ Γ', W.Ready Γ' y := by
  have hforesees := hx.foresees.part hpart
  obtain ⟨hfits, -, hchain, hadmits, horderly⟩ := id hx
  cases id hpart with
  | expression | print | answer =>
      exact ⟨Γ, hx.evaluate hpart hchain
        (hadmits.mono (by simp [Stmt.sites, Expr.sitesOption])
          (by simp [Stmt.tokens, Expr.tokensOption]))⟩
  | @initial _ _ name =>
      exact ⟨bind name false Γ, hx.evaluate hpart (hchain.declare name)
        (hadmits.mono (by simp [Stmt.sites, Expr.sitesOption])
          (by simp [Stmt.tokens, Expr.tokensOption]))⟩
  | block =>
      have hmade : W.made .block m.scopes.size :=
        hx.foresees _ .refl .block (by simp [Moment.makes?])
      obtain ⟨hfits', hchain'⟩ := enterBlock_fits hfits hchain hmade
      exact ⟨openBlock Γ, hfits', hforesees, hchain',
        hadmits.mono (by simp [Stmt.sites]) (by simp [Stmt.tokens]), horderly⟩
  | @condition _ _ _ _ other =>
      refine ⟨Γ, hx.evaluate hpart hchain (hadmits.mono ?_ ?_)⟩
      · cases other <;> simp [Stmt.sites]
      · cases other <;> simp [Stmt.tokens]
  | @consequent _ _ _ _ _ other _ h =>
      have hcondition := hx.evaluate .condition hchain
        (hadmits.mono (by cases other <;> simp [Stmt.sites])
          (by cases other <;> simp [Stmt.tokens]))
      obtain ⟨hresumes, hfits', -⟩ := ih.evaluated .condition hcondition h
      refine ⟨Γ, hfits', hforesees, hchain.resumes hresumes, hadmits.mono ?_ ?_, ?_⟩
      · cases other <;> simp [Stmt.sites]
      · cases other <;> simp [Stmt.tokens]
      · cases other <;> simp_all [Stmt.orderly]
  | alternative h =>
      have hcondition := hx.evaluate .condition hchain
        (hadmits.mono (by simp [Stmt.sites]) (by simp [Stmt.tokens]))
      obtain ⟨hresumes, hfits', -⟩ := ih.evaluated .condition hcondition h
      exact ⟨Γ, hfits', hforesees, hchain.resumes hresumes,
        hadmits.mono (by simp [Stmt.sites]) (by simp [Stmt.tokens]), by simp_all [Stmt.orderly]⟩
  | loopCondition =>
      exact ⟨Γ, hx.evaluate hpart hchain
        (hadmits.mono (by simp [Stmt.sites]) (by simp [Stmt.tokens]))⟩
  | loopBody h =>
      have hcondition := hx.evaluate .loopCondition hchain
        (hadmits.mono (by simp [Stmt.sites]) (by simp [Stmt.tokens]))
      obtain ⟨hresumes, hfits', -⟩ := ih.evaluated .loopCondition hcondition h
      exact ⟨Γ, hfits', hforesees, hchain.resumes hresumes,
        hadmits.mono (by simp [Stmt.sites]) (by simp [Stmt.tokens]), by simp_all [Stmt.orderly]⟩
  | loopAgain h hv hs =>
      have hcondition := hx.evaluate .loopCondition hchain
        (hadmits.mono (by simp [Stmt.sites]) (by simp [Stmt.tokens]))
      obtain ⟨hresumes, hfits', -⟩ := ih.evaluated .loopCondition hcondition h
      have hbody : W.Ready Γ ⟨n, .execute _, _⟩ :=
        ⟨hfits', hx.foresees.part (.loopBody h hv), hchain.resumes hresumes,
          hadmits.mono (by simp [Stmt.sites]) (by simp [Stmt.tokens]), by simp_all [Stmt.orderly]⟩
      obtain ⟨hresumes', hfits'', -⟩ := ih.executed (.loopBody h hv) hbody hs
      exact ⟨Γ, hfits'', hforesees, (hchain.resumes hresumes).resumes hresumes', hadmits, horderly⟩

/-- Where a moment is ready and its parts settle, each part is ready. -/
theorem ready_of_part (hx : W.Ready Γ x) (ih : W.PartsSettle x) (hpart : Part x y) :
    ∃ Γ', W.Ready Γ' y := by
  obtain ⟨fuel, task, m⟩ := x
  have hforesees := hx.foresees.part hpart
  obtain ⟨hfits, -, htask⟩ := id hx
  cases task with
  | evaluate e =>
      obtain ⟨n, rfl⟩ : ∃ n, fuel = n + 1 := by cases hpart <;> exact ⟨_, rfl⟩
      exact ⟨Γ, ready_of_expression_part hx ih hpart⟩
  | execute s =>
      obtain ⟨n, rfl⟩ : ∃ n, fuel = n + 1 := by cases hpart <;> exact ⟨_, rfl⟩
      exact ready_of_statement_part hx ih hpart
  | invoke callee vs =>
      obtain ⟨n, rfl⟩ : ∃ n, fuel = n + 1 := by cases hpart <;> exact ⟨_, rfl⟩
      exact ⟨Γ, ready_of_call_part hx hpart⟩
  | evaluateAll es =>
      obtain ⟨hchain, hadmits⟩ := htask
      cases id hpart with
      | firstOf =>
          exact ⟨Γ, hx.evaluate hpart hchain
            (hadmits.mono (by simp [Expr.sitesAll]) (by simp [Expr.tokensAll]))⟩
      | othersOf h =>
          have hfirst := hx.evaluate .firstOf hchain
            (hadmits.mono (by simp [Expr.sitesAll]) (by simp [Expr.tokensAll]))
          obtain ⟨hresumes, hfits', -⟩ := ih.evaluated .firstOf hfirst h
          exact ⟨Γ, hfits', hforesees, hchain.resumes hresumes,
            hadmits.mono (by simp [Expr.sitesAll]) (by simp [Expr.tokensAll])⟩
  | callValue callee paren vs =>
      cases id hpart with
      | invoke h =>
          obtain ⟨hcallee, hvs, -⟩ := htask
          exact ⟨Γ, hfits.depth _, hforesees, hcallee, hvs, (Run.arity?_of_checkCall h).1⟩
  | runRoutine r vs =>
      obtain ⟨⟨Γ', hchain, hadmits, horderly⟩, hvs, hlength⟩ := htask
      cases id hpart with
      | body =>
          have hmade : W.made .call m.scopes.size :=
            hx.foresees _ .refl .call (by simp [Moment.makes?])
          obtain ⟨hfits', hchain'⟩ := enterCall_fits hfits hchain hvs hlength hmade
          refine ⟨_, hfits', hforesees, hchain', hadmits.mono ?_ ?_, ?_⟩
          · rw [FunctionDecl.sites_eq]
            exact List.Subset.refl _
          · rw [FunctionDecl.tokens_eq]
            simp
          · rw [← FunctionDecl.orderly_eq]
            exact horderly
  | executeAll ss =>
      obtain ⟨hchain, hadmits, horderly⟩ := htask
      cases id hpart with
      | first => exact ⟨Γ, hx.first⟩
      | others h =>
          obtain ⟨hresumes, hfits', hchain'⟩ := ih.executed .first hx.first h
          exact ⟨_, hfits', hforesees, hchain',
            hadmits.mono (by simp [Stmt.sitesAll]) (by simp [Stmt.tokensAll]),
            by simp_all [Stmt.orderlyAll]⟩
  | lookUp node name | assign node name v | bindMethod r receiver => cases hpart

end Lox.Setting
