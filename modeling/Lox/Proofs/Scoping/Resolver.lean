import Lox.Proofs.Scoping.Sites

namespace Lox

open Resolution Scoping

variable {context : Context} {w : Walk} {Γ : List OpenFrame}

/-- The table with the distance of a site as well. -/
def Site.enter (hops : Hops) (site : Site) : Hops :=
  match site.distance? with
  | some distance => hops.insert site.node distance
  | none => hops

namespace Resolution

/-- The walk has the given frames open. -/
structure Walk.Opens (context : Context) (w : Walk) (Γ : List OpenFrame) : Prop where
  frames : w.frames = Γ.map OpenFrame.names
  inClass : context.inClass = hasReceiver Γ

/-- One part of a walk visits the given sites, and leaves the given frames open. -/
structure Walk.Visits (w w' : Walk) (sites : List Site) (Γ : List OpenFrame) : Prop where
  frames : w'.frames = Γ.map OpenFrame.names
  hops : w'.hops = sites.foldl Site.enter w.hops

theorem Walk.Visits.refl (h : w.frames = Γ.map OpenFrame.names) : w.Visits w [] Γ :=
  ⟨h, rfl⟩

theorem Walk.Visits.trans {w' w'' : Walk} {Γ' : List OpenFrame} {sites sites' : List Site}
    (h : w.Visits w' sites Γ) (h' : w'.Visits w'' sites' Γ') :
    w.Visits w'' (sites ++ sites') Γ' := by
  refine ⟨h'.frames, ?_⟩
  rw [h'.hops, h.hops, List.foldl_append]

theorem Walk.Opens.visited {w' : Walk} {sites : List Site} (h : w.Opens context Γ)
    (hvisits : w.Visits w' sites Γ) : w'.Opens context Γ :=
  ⟨hvisits.frames, h.inClass⟩

theorem Walk.Visits.report {w' : Walk} {sites : List Site} (h : w.Visits w' sites Γ)
    (place : Token) (fault : ResolutionFault) : w.Visits (w'.report place fault) sites Γ :=
  ⟨h.frames, h.hops⟩

theorem Walk.refer_visits (h : w.frames = Γ.map OpenFrame.names) (node : NodeId) (name : Token)
    (use : Use) (huse : use = .receiver → hasReceiver Γ) :
    w.Visits (w.refer node name (use ≠ .write)) [⟨node, name, use, Γ⟩] Γ := by
  have hdistance : ¬(use = .receiver ∧ (!hasReceiver Γ) = true) := by
    rintro ⟨hreceiver, hno⟩
    simp [huse hreceiver] at hno
  unfold Walk.refer
  rw [h]
  cases hfind : find name.lexeme (use ≠ .write) 0 false (Γ.map OpenFrame.names) with
  | bound distance =>
      refine ⟨rfl, ?_⟩
      rw [List.foldl_cons, List.foldl_nil, Site.enter, Site.distance?, if_neg hdistance, hfind]
  | nowhere unready =>
      have henter : w.hops = [⟨node, name, use, Γ⟩].foldl Site.enter w.hops := by
        rw [List.foldl_cons, List.foldl_nil, Site.enter, Site.distance?, if_neg hdistance, hfind]
      dsimp only
      split <;> exact ⟨h, henter⟩

theorem Walk.declare_visits (h : w.frames = Γ.map OpenFrame.names) (name : Token) :
    w.Visits (w.declare name) [] (bind name false Γ) := by
  unfold Walk.declare
  rw [h]
  cases Γ with
  | nil => exact ⟨rfl, rfl⟩
  | cons F Γ =>
      rw [List.map_cons]
      by_cases hdeclared : (F.names.find? name.lexeme).isSome
      · simp only [if_pos hdeclared]
        exact ⟨rfl, rfl⟩
      · simp only [if_neg hdeclared]
        exact ⟨rfl, rfl⟩

theorem Walk.define_visits (h : w.frames = Γ.map OpenFrame.names) (name : Token) :
    w.Visits (w.define name) [] (bind name true Γ) := by
  unfold Walk.define
  rw [h]
  cases Γ with
  | nil => exact ⟨h, rfl⟩
  | cons F Γ => exact ⟨rfl, rfl⟩

theorem Walk.introduce_visits (h : w.frames = Γ.map OpenFrame.names) (name : Token) :
    w.Visits ((w.declare name).define name) [] (introduce name Γ) :=
  have hdeclare := Walk.declare_visits h name
  hdeclare.trans (Walk.define_visits hdeclare.frames name)

@[simp] theorem hasReceiver_bind (name : Token) (ready : Bool) (Γ : List OpenFrame) :
    hasReceiver (bind name ready Γ) = hasReceiver Γ := by
  cases Γ <;> rfl

@[simp] theorem hasReceiver_introduce (name : Token) (Γ : List OpenFrame) :
    hasReceiver (introduce name Γ) = hasReceiver Γ := by
  simp [introduce]

theorem Walk.within_visits {F : OpenFrame} {Γ' : List OpenFrame} {sites : List Site}
    {inner : Walk → Walk} (h : w.frames = Γ.map OpenFrame.names)
    (hinner : ∀ w : Walk, w.frames = (F :: Γ).map OpenFrame.names →
      w.Visits (inner w) sites Γ')
    (htail : Γ'.tail = Γ) : w.Visits (w.within F.names inner) sites Γ := by
  have hvisits := hinner { w with frames := F.names :: w.frames } (by simp [h])
  constructor
  · rw [Walk.within, hvisits.frames, ← htail, List.map_tail]
  · exact hvisits.hops

mutual

theorem resolveExpr_visits {context : Context} {w : Walk} {Γ : List OpenFrame}
    (h : w.Opens context Γ) :
    ∀ e : Expr NodeId, w.Visits (resolveExpr context e w) (e.sites Γ) Γ
  | .literal _ => .refl h.frames
  | .grouping inner => resolveExpr_visits h inner
  | .unary _ operand => resolveExpr_visits h operand
  | .binary left _ right | .logical left _ right => by
      have hleft := resolveExpr_visits h left
      exact hleft.trans (resolveExpr_visits (h.visited hleft) right)
  | .var node name => Walk.refer_visits h.frames node name .read (by simp)
  | .assign node name value => by
      have hvalue := resolveExpr_visits h value
      exact hvalue.trans (Walk.refer_visits hvalue.frames node name .write (by simp))
  | .call callee _ arguments => by
      have hcallee := resolveExpr_visits h callee
      exact hcallee.trans (resolveExprs_visits (h.visited hcallee) arguments)
  | .get object _ => resolveExpr_visits h object
  | .set object _ value => by
      have hvalue := resolveExpr_visits h value
      exact hvalue.trans (resolveExpr_visits (h.visited hvalue) object)
  | .this node keyword => by
      rw [resolveExpr, h.inClass]
      split
      · rename_i hreceiver
        exact Walk.refer_visits h.frames node keyword .receiver fun _ => hreceiver
      · rename_i hreceiver
        refine ⟨h.frames, ?_⟩
        rw [Expr.sites, List.foldl_cons, Site.enter, Site.distance?,
          if_pos ⟨rfl, by simpa using hreceiver⟩]
        rfl

theorem resolveExprs_visits {context : Context} {w : Walk} {Γ : List OpenFrame}
    (h : w.Opens context Γ) :
    ∀ es : List (Expr NodeId), w.Visits (resolveExprs context es w) (Expr.sitesAll Γ es) Γ
  | [] => .refl h.frames
  | e :: es => by
      have he := resolveExpr_visits h e
      exact he.trans (resolveExprs_visits (h.visited he) es)

end

theorem resolveOption_visits {context : Context} {w : Walk} {Γ : List OpenFrame}
    (h : w.Opens context Γ) (e : Option (Expr NodeId)) :
    w.Visits (resolveOption context e w) (Expr.sitesOption Γ e) Γ := by
  cases e with
  | none => exact .refl h.frames
  | some e => exact resolveExpr_visits h e

theorem checkReturn_visits {context : Context} {w : Walk} {Γ : List OpenFrame}
    (h : w.Opens context Γ) (keyword : Token) (hasValue : Bool) :
    w.Visits (checkReturn context keyword hasValue w) [] Γ := by
  have hrefl : w.Visits w [] Γ := .refl h.frames
  unfold checkReturn
  split
  · exact hrefl.report _ _
  · split
    · exact hrefl.report _ _
    · exact hrefl
  · exact hrefl

theorem tail_introduce (name : Token) (Γ : List OpenFrame) :
    (introduce name Γ).tail = Γ.tail := by
  cases Γ <;> rfl

theorem params_visits {w : Walk} {Γ : List OpenFrame} (params : List Token)
    (h : w.frames = Γ.map OpenFrame.names) :
    w.Visits (params.foldl (fun w param => (w.declare param).define param) w) []
      (params.foldl (fun Γ param => introduce param Γ) Γ) := by
  induction params generalizing w Γ with
  | nil => exact .refl h
  | cons param params ih =>
      have hparam := Walk.introduce_visits h param
      exact hparam.trans (ih hparam.frames)

theorem tail_introduceAll (params : List Token) (Γ : List OpenFrame) :
    (params.foldl (fun Γ param => introduce param Γ) Γ).tail = Γ.tail := by
  induction params generalizing Γ with
  | nil => rfl
  | cons param params ih => rw [List.foldl_cons, ih, tail_introduce]

theorem hasReceiver_introduceAll (params : List Token) (Γ : List OpenFrame) :
    hasReceiver (params.foldl (fun Γ param => introduce param Γ) Γ) = hasReceiver Γ := by
  induction params generalizing Γ with
  | nil => rfl
  | cons param params ih => rw [List.foldl_cons, ih, hasReceiver_introduce]

theorem tail_after {Label : Type} (s : Stmt Label) (Γ : List OpenFrame) :
    (s.after Γ).tail = Γ.tail := by
  unfold Stmt.after
  split
  · exact tail_introduce _ Γ
  · exact tail_introduce _ Γ
  · exact tail_introduce _ Γ
  · rfl

theorem hasReceiver_after {Label : Type} (s : Stmt Label) (Γ : List OpenFrame) :
    hasReceiver (s.after Γ) = hasReceiver Γ := by
  unfold Stmt.after
  split <;> simp

theorem tail_afterAll {Label : Type} (ss : List (Stmt Label)) (Γ : List OpenFrame) :
    (Stmt.afterAll Γ ss).tail = Γ.tail := by
  induction ss generalizing Γ with
  | nil => rfl
  | cons s ss ih => rw [Stmt.afterAll, List.foldl_cons, ← Stmt.afterAll, ih, tail_after]

mutual

theorem resolveStmt_visits {context : Context} {w : Walk} {Γ : List OpenFrame}
    (h : w.Opens context Γ) :
    ∀ s : Stmt NodeId, s.orderly → w.Visits (resolveStmt context s w) (s.sites Γ) (s.after Γ)
  | .expression e, _ | .print e, _ => resolveExpr_visits h e
  | .var name initial, _ => by
      have hdeclare := Walk.declare_visits h.frames name
      have hopens : (w.declare name).Opens context (bind name false Γ) :=
        ⟨hdeclare.frames, by rw [hasReceiver_bind, h.inClass]⟩
      have hinitial := resolveOption_visits hopens initial
      have hvar := (hdeclare.trans hinitial).trans (Walk.define_visits hinitial.frames name)
      rw [List.nil_append, List.append_nil] at hvar
      exact hvar
  | .block body, hs => by
      have hbody : ∀ w' : Walk, w'.frames = (openBlock Γ).map OpenFrame.names →
          w'.Visits (resolveStmts context body w') (Stmt.sitesAll (openBlock Γ) body)
            (Stmt.afterAll (openBlock Γ) body) :=
        fun w' hw' => resolveStmts_visits ⟨hw', h.inClass⟩ body hs
      exact Walk.within_visits h.frames hbody (tail_afterAll body _)
  | .branch condition consequent none, hs => by
      have hs : consequent.plain ∧ consequent.orderly := by simpa [Stmt.orderly] using hs
      have hcondition := resolveExpr_visits h condition
      have hconsequent := resolveStmt_visits (h.visited hcondition) consequent hs.2
      rw [Stmt.after_of_plain hs.1] at hconsequent
      exact hcondition.trans hconsequent
  | .branch condition consequent (some alternative), hs => by
      have hs : ((consequent.plain ∧ consequent.orderly) ∧ alternative.plain) ∧
          alternative.orderly := by
        simpa [Stmt.orderly] using hs
      have hcondition := resolveExpr_visits h condition
      have hconsequent := resolveStmt_visits (h.visited hcondition) consequent hs.1.1.2
      rw [Stmt.after_of_plain hs.1.1.1] at hconsequent
      have hboth := hcondition.trans hconsequent
      have halternative := resolveStmt_visits (h.visited hboth) alternative hs.2
      rw [Stmt.after_of_plain hs.1.2] at halternative
      exact hboth.trans halternative
  | .loop condition body, hs => by
      have hs : body.plain ∧ body.orderly := by simpa [Stmt.orderly] using hs
      have hcondition := resolveExpr_visits h condition
      have hbody := resolveStmt_visits (h.visited hcondition) body hs.2
      rw [Stmt.after_of_plain hs.1] at hbody
      exact hcondition.trans hbody
  | .function declaration, hs => by
      have hname := Walk.introduce_visits h.frames declaration.name
      have hopens : ((w.declare declaration.name).define declaration.name).Opens context
          (introduce declaration.name Γ) :=
        ⟨hname.frames, by rw [hasReceiver_introduce, h.inClass]⟩
      exact hname.trans (resolveFunction_visits hopens .function declaration hs)
  | .ret keyword value, _ => by
      have hcheck := checkReturn_visits h keyword value.isSome
      exact hcheck.trans (resolveOption_visits (h.visited hcheck) value)
  | .class_ name methods, hs => by
      have hname := Walk.introduce_visits h.frames name
      have hmethods : ∀ w' : Walk, w'.frames = (openReceiver (introduce name Γ)).map
          OpenFrame.names → w'.Visits (resolveMethods { context with inClass := true } methods w')
            (FunctionDecl.sitesAll (openReceiver (introduce name Γ)) methods)
            (openReceiver (introduce name Γ)) :=
        fun w' hw' => resolveMethods_visits ⟨hw', rfl⟩ methods hs
      exact hname.trans (Walk.within_visits hname.frames hmethods rfl)

theorem resolveStmts_visits {context : Context} {w : Walk} {Γ : List OpenFrame}
    (h : w.Opens context Γ) :
    ∀ ss : List (Stmt NodeId), Stmt.orderlyAll ss →
      w.Visits (resolveStmts context ss w) (Stmt.sitesAll Γ ss) (Stmt.afterAll Γ ss)
  | [], _ => .refl h.frames
  | s :: ss, hss => by
      have hss : s.orderly ∧ Stmt.orderlyAll ss := by simpa [Stmt.orderlyAll] using hss
      have hs := resolveStmt_visits h s hss.1
      exact hs.trans
        (resolveStmts_visits ⟨hs.frames, by rw [hasReceiver_after, h.inClass]⟩ ss hss.2)

theorem resolveFunction_visits {context : Context} {w : Walk} {Γ : List OpenFrame}
    (h : w.Opens context Γ) (role : Role) :
    ∀ d : FunctionDecl NodeId, d.orderly →
      w.Visits (resolveFunction context role d w) (d.sites Γ) Γ
  | ⟨_, params, body⟩, hd => by
      rw [resolveFunction, FunctionDecl.sites]
      refine Walk.within_visits (F := ⟨.call, .empty⟩) h.frames (fun w' hw' => ?_)
        ((tail_afterAll body (openCall params Γ)).trans (tail_introduceAll params _))
      have hparams := params_visits params hw'
      refine hparams.trans (resolveStmts_visits ⟨hparams.frames, ?_⟩ body hd)
      rw [hasReceiver_introduceAll]
      exact h.inClass

theorem resolveMethods_visits {context : Context} {w : Walk} {Γ : List OpenFrame}
    (h : w.Opens context Γ) :
    ∀ ms : List (FunctionDecl NodeId), FunctionDecl.orderlyAll ms →
      w.Visits (resolveMethods context ms w) (FunctionDecl.sitesAll Γ ms) Γ
  | [], _ => .refl h.frames
  | m :: ms, hms => by
      have hms : m.orderly ∧ FunctionDecl.orderlyAll ms := by
        simpa [FunctionDecl.orderlyAll] using hms
      have hm := resolveFunction_visits h (methodRole m.name) m hms.1
      exact hm.trans (resolveMethods_visits (h.visited hm) ms hms.2)

end

/-- The table of a program has the distance of each site, and nothing else. -/
theorem hops_resolve (globals : List String) {program : List (Stmt NodeId)}
    (h : Stmt.orderlyAll program) :
    (resolve globals program).hops = (Stmt.sitesAll [] program).foldl Site.enter ∅ := by
  have hopens : Walk.Opens .topLevel ⟨[], globals, ∅, #[]⟩ [] := ⟨rfl, rfl⟩
  exact (resolveStmts_visits hopens program h).hops

end Resolution

end Lox
