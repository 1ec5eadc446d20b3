import Lox.Proofs.Likeness.Correspondence
import Lox.Proofs.Scoping.Tokens

namespace Lox

open Resolution Scoping

namespace Correspondence

variable (C : Correspondence)

/-- The new name is not among the tokens, unless no name is changed at all. -/
def Avoids (tokens : List Token) : Prop := ∀ t ∈ tokens, C.Fresh t.lexeme

/-- The table has the distances of the sites. -/
def Knows (sites : List Site) : Prop := ∀ site ∈ sites, C.hops site.node = site.distance?

variable {C} {Δ : List Bool} {w w' : Walk} {Γ : List OpenFrame} {context : Context}

theorem Avoids.mono {tokens tokens' : List Token} (h : C.Avoids tokens)
    (hsubset : tokens' ⊆ tokens) : C.Avoids tokens' :=
  fun t ht => h t (hsubset ht)

theorem Knows.mono {sites sites' : List Site} (h : C.Knows sites) (hsubset : sites' ⊆ sites) :
    C.Knows sites' :=
  fun site hsite => h site (hsubset hsite)

/-- One walk corresponds to another. -/
structure WalksAlike (C : Correspondence) (Δ : List Bool) (w w' : Walk) : Prop where
  frames : C.FramesAlike Δ w.frames w'.frames
  globals : w.globals ⊆ w'.globals
  hops : w'.hops = w.hops
  reports : w.reports = #[] → w'.reports = #[]

theorem WalksAlike.report (h : C.WalksAlike Δ w w') (place : Token) (fault : ResolutionFault)
    {w'' : Walk} (hframes : w''.frames = w'.frames) (hglobals : w''.globals = w'.globals)
    (hhops : w''.hops = w'.hops) : C.WalksAlike Δ (w.report place fault) w'' := by
  refine ⟨?_, ?_, ?_, by simp [Walk.report]⟩
  · rw [hframes]
    exact h.frames
  · rw [hglobals]
    exact h.globals
  · rw [hhops]
    exact h.hops

theorem WalksAlike.declare (h : C.WalksAlike Δ w w') {name name' : Token}
    (hname : C.Spelled (Δ.headD false) name.lexeme name'.lexeme) (hfresh : C.Fresh name.lexeme) :
    C.WalksAlike Δ (w.declare name) (w'.declare name') := by
  obtain ⟨frames, globals, hops, reports⟩ := w
  obtain ⟨frames', globals', hops', reports'⟩ := w'
  obtain ⟨hframes, hglobals, hhops, hreports⟩ := h
  cases hframes with
  | nil =>
      rw [List.headD_nil, spelled_false_iff] at hname
      refine ⟨.nil, ?_, hhops, hreports⟩
      simp only [Walk.declare, hname]
      exact List.cons_subset_cons _ hglobals
  | @cons mark Δ F F' Fs Fs' hF hFs =>
      rw [List.headD_cons] at hname
      have hinserted : C.FramesAlike (mark :: Δ) (F.insert name.lexeme false :: Fs)
          (F'.insert name'.lexeme false :: Fs') := .cons (hF.insert hname hfresh false) hFs
      have hsame := hF.spelled _ _ hname
      unfold Walk.declare
      dsimp only
      rw [hsame]
      split
      · exact ⟨hinserted, hglobals, hhops, by simp [Walk.report]⟩
      · exact ⟨hinserted, hglobals, hhops, hreports⟩

theorem WalksAlike.define (h : C.WalksAlike Δ w w') {name name' : Token}
    (hname : C.Spelled (Δ.headD false) name.lexeme name'.lexeme) (hfresh : C.Fresh name.lexeme) :
    C.WalksAlike Δ (w.define name) (w'.define name') := by
  obtain ⟨frames, globals, hops, reports⟩ := w
  obtain ⟨frames', globals', hops', reports'⟩ := w'
  obtain ⟨hframes, hglobals, hhops, hreports⟩ := h
  cases hframes with
  | nil => exact ⟨.nil, hglobals, hhops, hreports⟩
  | cons hF hFs => exact ⟨.cons (hF.insert hname hfresh true) hFs, hglobals, hhops, hreports⟩

theorem WalksAlike.refer (h : C.WalksAlike Δ w w') (use : Use) {node : NodeId}
    {name name' : Token} (hframes : w.frames = Γ.map OpenFrame.names)
    (hname : C.likeness.reference Δ node name name') (hfresh : C.Fresh name.lexeme)
    (huse : use = .receiver → hasReceiver Γ)
    (hknows : C.hops node = (⟨node, name, use, Γ⟩ : Site).distance?) :
    C.WalksAlike Δ (w.refer node name (use ≠ .write)) (w'.refer node name' (use ≠ .write)) := by
  have hreceiver : ¬(use = .receiver ∧ (!hasReceiver Γ) = true) := by
    rintro ⟨hreceiver, hno⟩
    simp [huse hreceiver] at hno
  rw [Site.distance?, if_neg hreceiver, ← hframes] at hknows
  dsimp only at hknows
  obtain ⟨-, hglobal, hlocal⟩ := hname
  unfold Walk.refer
  cases hfind : find name.lexeme (use ≠ .write) 0 false w.frames with
  | bound distance =>
      rw [hfind] at hknows
      obtain ⟨mark, hmark, hspelled⟩ := hlocal distance hknows
      rw [find_of_bound h.frames hfresh (by simpa using hmark) hspelled (Nat.zero_le _) hfind]
      refine ⟨h.frames, h.globals, ?_, h.reports⟩
      dsimp only
      rw [h.hops]
  | nowhere unready =>
      rw [hfind] at hknows
      obtain ⟨unready', hfind', hunready⟩ := find_of_nowhere h.frames hfresh id hfind
      rw [C.lexeme_eq (hglobal hknows), hfind']
      dsimp only
      split
      · refine h.report name .readInOwnInitializer ?_ ?_ ?_ <;> split <;> rfl
      · rename_i hquiet
        rw [if_neg]
        · exact h
        · intro hloud
          have hloud : unready' = true ∧ name.lexeme ∉ w'.globals := by simpa using hloud
          have hquiet : unready = true → name.lexeme ∈ w.globals := by simpa using hquiet
          exact hloud.2 (h.globals (hquiet (hunready hloud.1)))

theorem WalksAlike.within {mark : Bool} {F F' : Frame} {inner inner' : Walk → Walk}
    (hinner : C.WalksAlike (mark :: Δ) (inner { w with frames := F :: w.frames })
      (inner' { w' with frames := F' :: w'.frames })) :
    C.WalksAlike Δ (w.within F inner) (w'.within F' inner') := by
  unfold Walk.within
  obtain ⟨hframes, hglobals, hhops, hreports⟩ := hinner
  generalize inner { w with frames := F :: w.frames } = v at *
  generalize inner' { w' with frames := F' :: w'.frames } = v' at *
  obtain ⟨frames, globals, hops, reports⟩ := v
  obtain ⟨frames', globals', hops', reports'⟩ := v'
  cases hframes with
  | cons _ hFs => exact ⟨hFs, hglobals, hhops, hreports⟩

theorem WalksAlike.enter (h : C.WalksAlike Δ w w') {mark : Bool} {F F' : Frame}
    (hF : C.FrameAlike mark F F') :
    C.WalksAlike (mark :: Δ) { w with frames := F :: w.frames }
      { w' with frames := F' :: w'.frames } :=
  ⟨.cons hF h.frames, h.globals, h.hops, h.reports⟩

mutual

theorem resolveExpr_alike {Δ : List Bool} {w w' : Walk} {Γ : List OpenFrame} {context : Context}
    (hw : C.WalksAlike Δ w w') (hopens : w.Opens context Γ) :
    ∀ {e e' : Expr NodeId}, Expr.Alike C.likeness Δ e e' → C.Knows (e.sites Γ) →
      C.Avoids e.tokens → C.WalksAlike Δ (resolveExpr context e w) (resolveExpr context e' w')
  | _, _, .literal, _, _ => hw
  | _, _, .grouping h, hknows, havoids => by
      have hinner := resolveExpr_alike hw hopens h hknows havoids
      exact hinner
  | _, _, .unary _ h, hknows, havoids => by
      have hoperand := resolveExpr_alike hw hopens h hknows (havoids.mono (by simp [Expr.tokens]))
      exact hoperand
  | _, _, .binary ha _ hb, hknows, havoids | _, _, .logical ha _ hb, hknows, havoids => by
      have hleft := resolveExpr_alike hw hopens ha (hknows.mono (by simp [Expr.sites]))
        (havoids.mono (by simp [Expr.tokens]))
      exact resolveExpr_alike hleft (hopens.visited (resolveExpr_visits hopens _)) hb
        (hknows.mono (by simp [Expr.sites])) (havoids.mono (by simp [Expr.tokens]))
  | _, _, .var hname, hknows, havoids =>
      hw.refer .read hopens.frames hname (havoids _ (by simp [Expr.tokens])) (by simp)
        (hknows ⟨_, _, .read, Γ⟩ (by simp [Expr.sites]))
  | _, _, .assign hname h, hknows, havoids => by
      have hvalue := resolveExpr_alike hw hopens h (hknows.mono (by simp [Expr.sites]))
        (havoids.mono (by simp [Expr.tokens]))
      exact hvalue.refer .write (resolveExpr_visits hopens _).frames hname
        (havoids _ (by simp [Expr.tokens])) (by simp)
        (hknows ⟨_, _, .write, Γ⟩ (by simp [Expr.sites]))
  | _, _, .call hcallee _ hes, hknows, havoids => by
      have hfirst := resolveExpr_alike hw hopens hcallee (hknows.mono (by simp [Expr.sites]))
        (havoids.mono (by simp [Expr.tokens]))
      exact resolveExprs_alike hfirst (hopens.visited (resolveExpr_visits hopens _)) hes
        (hknows.mono (by simp [Expr.sites])) (havoids.mono (by simp [Expr.tokens]))
  | _, _, .get h _, hknows, havoids => by
      have hobject := resolveExpr_alike hw hopens h hknows (havoids.mono (by simp [Expr.tokens]))
      exact hobject
  | _, _, .set hobject _ hvalue, hknows, havoids => by
      have hfirst := resolveExpr_alike hw hopens hvalue (hknows.mono (by simp [Expr.sites]))
        (havoids.mono (by simp [Expr.tokens]))
      exact resolveExpr_alike hfirst (hopens.visited (resolveExpr_visits hopens _)) hobject
        (hknows.mono (by simp [Expr.sites])) (havoids.mono (by simp [Expr.tokens]))
  | _, _, .this hkeyword, hknows, havoids => by
      unfold resolveExpr
      split
      · rename_i hinside
        exact hw.refer .receiver hopens.frames hkeyword
          (havoids _ (by simp [Expr.tokens])) (fun _ => hopens.inClass ▸ hinside)
          (hknows ⟨_, _, .receiver, Γ⟩ (by simp [Expr.sites]))
      · exact hw.report _ _ rfl rfl rfl

theorem resolveExprs_alike {Δ : List Bool} {w w' : Walk} {Γ : List OpenFrame} {context : Context}
    (hw : C.WalksAlike Δ w w') (hopens : w.Opens context Γ) :
    ∀ {es es' : List (Expr NodeId)}, Expr.AlikeAll C.likeness Δ es es' →
      C.Knows (Expr.sitesAll Γ es) → C.Avoids (Expr.tokensAll es) →
      C.WalksAlike Δ (resolveExprs context es w) (resolveExprs context es' w')
  | _, _, .nil, _, _ => hw
  | _, _, .cons h hs, hknows, havoids => by
      have hfirst := resolveExpr_alike hw hopens h (hknows.mono (by simp [Expr.sitesAll]))
        (havoids.mono (by simp [Expr.tokensAll]))
      exact resolveExprs_alike hfirst (hopens.visited (resolveExpr_visits hopens _)) hs
        (hknows.mono (by simp [Expr.sitesAll])) (havoids.mono (by simp [Expr.tokensAll]))

end

theorem resolveOption_alike (hw : C.WalksAlike Δ w w') (hopens : w.Opens context Γ)
    {e e' : Option (Expr NodeId)} (h : Expr.AlikeOption C.likeness Δ e e')
    (hknows : C.Knows (Expr.sitesOption Γ e)) (havoids : C.Avoids (Expr.tokensOption e)) :
    C.WalksAlike Δ (resolveOption context e w) (resolveOption context e' w') := by
  cases h with
  | none => exact hw
  | some h => exact resolveExpr_alike hw hopens h hknows havoids

theorem AlikeOption.isSome_eq {L : Likeness NodeId} {e e' : Option (Expr NodeId)}
    (h : Expr.AlikeOption L Δ e e') : e'.isSome = e.isSome := by
  cases h <;> rfl

theorem checkReturn_alike (hw : C.WalksAlike Δ w w') (context : Context) (keyword keyword' : Token)
    (hasValue : Bool) :
    C.WalksAlike Δ (checkReturn context keyword hasValue w)
      (checkReturn context keyword' hasValue w') := by
  unfold checkReturn
  split
  · exact hw.report _ _ rfl rfl rfl
  · split
    · exact hw.report _ _ rfl rfl rfl
    · exact hw
  · exact hw

theorem params_alike {mark : Bool} {params params' : List Token}
    (hw : C.WalksAlike (mark :: Δ) w w')
    (h : List.Forall₂ (C.likeness.binder (mark :: Δ)) params params')
    (havoids : C.Avoids params) :
    C.WalksAlike (mark :: Δ) (params.foldl (fun w param => (w.declare param).define param) w)
      (params'.foldl (fun w param => (w.declare param).define param) w') := by
  induction h generalizing w w' with
  | nil => exact hw
  | @cons param param' params params' hparam _ ih =>
      have hfresh := havoids param List.mem_cons_self
      exact ih ((hw.declare hparam hfresh).define hparam hfresh) (havoids.mono (by simp))

theorem methodRole_alike {d d' : FunctionDecl NodeId}
    (h : FunctionDecl.Alike C.likeness Δ d d') : methodRole d.name = methodRole d'.name := by
  cases h with
  | mk hname =>
      simp only [methodRole]
      rw [C.lexeme_eq hname]

mutual

theorem resolveStmt_alike {Δ : List Bool} {w w' : Walk} {Γ : List OpenFrame} {context : Context}
    (hw : C.WalksAlike Δ w w') (hopens : w.Opens context Γ) :
    ∀ {s s' : Stmt NodeId}, Stmt.Alike C.likeness Δ s s' → C.Knows (s.sites Γ) →
      C.Avoids s.tokens → s.orderly →
      C.WalksAlike Δ (resolveStmt context s w) (resolveStmt context s' w')
  | _, _, .expression h, hknows, havoids, _ | _, _, .print h, hknows, havoids, _ => by
      have he := resolveExpr_alike hw hopens h hknows havoids
      exact he
  | .var name initial, _, .var hname h, hknows, havoids, _ => by
      have hfresh := havoids name (by simp [Stmt.tokens])
      have hdeclared := Walk.declare_visits hopens.frames name
      have hinitial := resolveOption_alike (hw.declare hname hfresh)
        ⟨hdeclared.frames, by rw [hasReceiver_bind, hopens.inClass]⟩ h hknows
        (havoids.mono (by simp [Stmt.tokens]))
      exact hinitial.define hname hfresh
  | _, _, .block h, hknows, havoids, horderly => by
      have hopened : ({ w with frames := .empty :: w.frames } : Walk).Opens context
          (openBlock Γ) := ⟨by simp [openBlock, hopens.frames], hopens.inClass⟩
      have hbody := resolveStmts_alike (hw.enter (FrameAlike.empty _)) hopened h hknows havoids
        horderly
      exact WalksAlike.within hbody
  | _, _, .branch he hs, hknows, havoids, horderly => by
      have hcondition := resolveExpr_alike hw hopens he (hknows.mono (by simp [Stmt.sites]))
        (havoids.mono (by simp [Stmt.tokens]))
      have hconsequent := resolveStmt_alike hcondition
        (hopens.visited (resolveExpr_visits hopens _)) hs (hknows.mono (by simp [Stmt.sites]))
        (havoids.mono (by simp [Stmt.tokens])) (by simp_all [Stmt.orderly])
      exact hconsequent
  | .branch condition consequent (some alternative), _, .branches he hs hother, hknows, havoids,
    horderly => by
      have horderly : ((consequent.plain ∧ consequent.orderly) ∧ alternative.plain) ∧
          alternative.orderly := by
        simpa [Stmt.orderly] using horderly
      have hcondition := resolveExpr_alike hw hopens he (hknows.mono (by simp [Stmt.sites]))
        (havoids.mono (by simp [Stmt.tokens]))
      have hopens' := hopens.visited (resolveExpr_visits hopens condition)
      have hconsequent := resolveStmt_alike hcondition hopens' hs
        (hknows.mono (by simp [Stmt.sites])) (havoids.mono (by simp [Stmt.tokens])) horderly.1.1.2
      have hvisits := resolveStmt_visits hopens' consequent horderly.1.1.2
      rw [Stmt.after_of_plain horderly.1.1.1] at hvisits
      have halternative := resolveStmt_alike hconsequent (hopens'.visited hvisits) hother
        (hknows.mono (by simp [Stmt.sites])) (havoids.mono (by simp [Stmt.tokens])) horderly.2
      exact halternative
  | _, _, .loop he hs, hknows, havoids, horderly => by
      have hcondition := resolveExpr_alike hw hopens he (hknows.mono (by simp [Stmt.sites]))
        (havoids.mono (by simp [Stmt.tokens]))
      have hbody := resolveStmt_alike hcondition
        (hopens.visited (resolveExpr_visits hopens _)) hs (hknows.mono (by simp [Stmt.sites]))
        (havoids.mono (by simp [Stmt.tokens])) (by simp_all [Stmt.orderly])
      exact hbody
  | .function d, _, .function hname h, hknows, havoids, horderly => by
      have hfresh := havoids d.name (by simp [Stmt.tokens, FunctionDecl.tokens_eq])
      have hvisits := Walk.introduce_visits hopens.frames d.name
      have hopened : ((w.declare d.name).define d.name).Opens context (introduce d.name Γ) :=
        ⟨hvisits.frames, by rw [hasReceiver_introduce, hopens.inClass]⟩
      have hfunction := resolveFunction_alike ((hw.declare hname.2 hfresh).define hname.2 hfresh)
        hopened .function h hknows havoids horderly
      exact hfunction
  | .ret keyword value, .ret keyword' value', .ret _ h, hknows, havoids, _ => by
      have hchecked := checkReturn_alike hw context keyword keyword' value.isSome
      have hvalue := resolveOption_alike hchecked
        (hopens.visited (checkReturn_visits hopens keyword value.isSome)) h hknows
        (havoids.mono (by simp [Stmt.tokens]))
      rw [resolveStmt, resolveStmt, AlikeOption.isSome_eq h]
      exact hvalue
  | .class_ name methods, _, .class_ hname h, hknows, havoids, horderly => by
      have hfresh := havoids name (by simp [Stmt.tokens])
      have hvisits := Walk.introduce_visits hopens.frames name
      have hopened : ({ (w.declare name).define name with
          frames := Bindings.empty.insert thisName true :: ((w.declare name).define name).frames } :
            Walk).Opens { context with inClass := true } (openReceiver (introduce name Γ)) :=
        ⟨congrArg _ hvisits.frames, rfl⟩
      have hmethods := resolveMethods_alike
        (((hw.declare hname.2 hfresh).define hname.2 hfresh).enter .receiver) hopened h hknows
        (havoids.mono (by simp [Stmt.tokens])) horderly
      exact WalksAlike.within hmethods

theorem resolveStmts_alike {Δ : List Bool} {w w' : Walk} {Γ : List OpenFrame} {context : Context}
    (hw : C.WalksAlike Δ w w') (hopens : w.Opens context Γ) :
    ∀ {ss ss' : List (Stmt NodeId)}, Stmt.AlikeAll C.likeness Δ ss ss' →
      C.Knows (Stmt.sitesAll Γ ss) → C.Avoids (Stmt.tokensAll ss) → Stmt.orderlyAll ss →
      C.WalksAlike Δ (resolveStmts context ss w) (resolveStmts context ss' w')
  | _, _, .nil, _, _, _ => hw
  | s :: ss, _, .cons h hs, hknows, havoids, horderly => by
      have horderly : s.orderly ∧ Stmt.orderlyAll ss := by simpa [Stmt.orderlyAll] using horderly
      have hfirst := resolveStmt_alike hw hopens h (hknows.mono (by simp [Stmt.sitesAll]))
        (havoids.mono (by simp [Stmt.tokensAll])) horderly.1
      have hvisits := resolveStmt_visits hopens s horderly.1
      have hothers := resolveStmts_alike hfirst
        ⟨hvisits.frames, by rw [hasReceiver_after, hopens.inClass]⟩ hs
        (hknows.mono (by simp [Stmt.sitesAll])) (havoids.mono (by simp [Stmt.tokensAll])) horderly.2
      exact hothers

theorem resolveFunction_alike {Δ : List Bool} {w w' : Walk} {Γ : List OpenFrame}
    {context : Context} (hw : C.WalksAlike Δ w w') (hopens : w.Opens context Γ) (role : Role) :
    ∀ {d d' : FunctionDecl NodeId}, FunctionDecl.Alike C.likeness Δ d d' → C.Knows (d.sites Γ) →
      C.Avoids d.tokens → d.orderly →
      C.WalksAlike Δ (resolveFunction context role d w) (resolveFunction context role d' w')
  | ⟨name, params, body⟩, _, .mk _ hparams h, hknows, havoids, horderly => by
      have hopened : ({ w with frames := .empty :: w.frames } : Walk).frames =
          ((⟨.call, .empty⟩ : OpenFrame) :: Γ).map OpenFrame.names := by
        simp [hopens.frames]
      have hvisits := params_visits params hopened
      have hentered := params_alike (hw.enter (FrameAlike.empty _)) hparams
        (havoids.mono (by simp [FunctionDecl.tokens]))
      have hinside : Walk.Opens { context with role := some role }
          (params.foldl (fun w param => (w.declare param).define param)
            { w with frames := .empty :: w.frames }) (openCall params Γ) := by
        refine ⟨hvisits.frames, ?_⟩
        rw [openCall, hasReceiver_introduceAll]
        exact hopens.inClass
      have hbody := resolveStmts_alike hentered hinside h hknows
        (havoids.mono (by simp [FunctionDecl.tokens])) horderly
      rw [resolveFunction, resolveFunction]
      exact WalksAlike.within hbody

theorem resolveMethods_alike {Δ : List Bool} {w w' : Walk} {Γ : List OpenFrame}
    {context : Context} (hw : C.WalksAlike Δ w w') (hopens : w.Opens context Γ) :
    ∀ {ds ds' : List (FunctionDecl NodeId)}, FunctionDecl.AlikeAll C.likeness Δ ds ds' →
      C.Knows (FunctionDecl.sitesAll Γ ds) → C.Avoids (FunctionDecl.tokensAll ds) →
      FunctionDecl.orderlyAll ds →
      C.WalksAlike Δ (resolveMethods context ds w) (resolveMethods context ds' w')
  | _, _, .nil, _, _, _ => hw
  | d :: ds, d' :: _, .cons h hs, hknows, havoids, horderly => by
      have horderly : d.orderly ∧ FunctionDecl.orderlyAll ds := by
        simpa [FunctionDecl.orderlyAll] using horderly
      have hfirst := resolveFunction_alike hw hopens (methodRole d.name) h
        (hknows.mono (by simp [FunctionDecl.sitesAll]))
        (havoids.mono (by simp [FunctionDecl.tokensAll])) horderly.1
      have hothers := resolveMethods_alike hfirst
        (hopens.visited (resolveFunction_visits hopens (methodRole d.name) d horderly.1)) hs
        (hknows.mono (by simp [FunctionDecl.sitesAll]))
        (havoids.mono (by simp [FunctionDecl.tokensAll])) horderly.2
      rw [resolveMethods, resolveMethods, ← methodRole_alike h]
      exact hothers

end

end Correspondence

end Lox
