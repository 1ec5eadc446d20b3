import Lox.Proofs.Relabelling.Resolver
import Lox.Proofs.Relining.Trees

namespace Lox

/-- The diagnostic without its line. -/
def Diagnostic.unlined : Diagnostic → Diagnostic
  | lexical _ fault => .lexical 0 fault
  | syntactic place fault => .syntactic place.unlined fault
  | resolution place fault => .resolution place.unlined fault
  | runtime place fault => .runtime place.unlined fault
  | output fault => .output fault

namespace Resolution

/-- The walk with no lines in what it has reported. -/
def Walk.unlined (w : Walk) : Walk := { w with reports := w.reports.map Diagnostic.unlined }

namespace Walk

theorem unlined_report (w : Walk) (place : Token) (fault : ResolutionFault) :
    w.unlined.report place.unlined fault = (w.report place fault).unlined := by
  simp [report, unlined, Diagnostic.unlined]

theorem unlined_declare (w : Walk) (name : Token) :
    w.unlined.declare name.unlined = (w.declare name).unlined := by
  obtain ⟨frames, globals, hops, reports⟩ := w
  cases frames with
  | nil => rfl
  | cons frame outer =>
      let declared : Walk := ⟨frame.insert name.lexeme false :: outer, globals, hops, reports⟩
      change (if (frame.find? name.lexeme).isSome then
          declared.unlined.report name.unlined .alreadyDeclared else declared.unlined) =
        Walk.unlined (if (frame.find? name.lexeme).isSome then
          declared.report name .alreadyDeclared else declared)
      rw [apply_ite unlined, unlined_report]

theorem unlined_define (w : Walk) (name : Token) :
    w.unlined.define name.unlined = (w.define name).unlined := by
  obtain ⟨frames, globals, hops, reports⟩ := w
  cases frames <;> rfl

theorem unlined_refer (w : Walk) (node : NodeId) (name : Token) (reading : Bool) :
    w.unlined.refer node name.unlined reading = (w.refer node name reading).unlined := by
  have hfind : find name.unlined.lexeme reading 0 false w.unlined.frames =
      find name.lexeme reading 0 false w.frames := rfl
  have hglobal : w.unlined.globals.contains name.unlined.lexeme =
      w.globals.contains name.lexeme := rfl
  unfold refer
  rw [hfind, hglobal]
  cases find name.lexeme reading 0 false w.frames with
  | bound distance => rfl
  | nowhere unready =>
      simp only
      rw [apply_ite unlined, unlined_report]

theorem unlined_within (w : Walk) {inner inner' : Walk → Walk}
    (h : ∀ w, inner' w.unlined = (inner w).unlined) (frame : Frame) :
    w.unlined.within frame inner' = (w.within frame inner).unlined := by
  have hinner := h { w with frames := frame :: w.frames }
  simp only [unlined] at hinner
  simp only [within, unlined, hinner]

end Walk

theorem checkReturn_unlined (context : Context) (keyword : Token) (hasValue : Bool) (w : Walk) :
    checkReturn context keyword.unlined hasValue w.unlined =
      (checkReturn context keyword hasValue w).unlined := by
  unfold checkReturn
  split
  · exact w.unlined_report keyword _
  · split
    · exact w.unlined_report keyword _
    · rfl
  · rfl

theorem params_unlined (params : List Token) (w : Walk) :
    (params.map Token.unlined).foldl (fun w param => (w.declare param).define param) w.unlined =
      (params.foldl (fun w param => (w.declare param).define param) w).unlined := by
  induction params generalizing w with
  | nil => rfl
  | cons param params ih =>
      rw [List.map_cons, List.foldl_cons, List.foldl_cons, Walk.unlined_declare,
        Walk.unlined_define, ih]

mutual

theorem resolveExpr_unlined (context : Context) (d : Nat) : ∀ (e : Expr NodeId) (w : Walk),
    resolveExpr context (e.respell (.everywhere Token.unlined) d) w.unlined =
      (resolveExpr context e w).unlined
  | .literal _, _ => rfl
  | .grouping inner, w | .unary _ inner, w | .get inner _, w =>
      resolveExpr_unlined context d inner w
  | .binary left _ right, w | .logical left _ right, w => by
      simp only [Expr.respell, resolveExpr, resolveExpr_unlined context d left,
        resolveExpr_unlined context d right]
  | .var node name, w => w.unlined_refer node name true
  | .assign node name value, w => by
      simp only [Expr.respell, resolveExpr, resolveExpr_unlined context d value]
      exact Walk.unlined_refer _ node name false
  | .call callee _ arguments, w => by
      simp only [Expr.respell, resolveExpr, resolveExpr_unlined context d callee,
        resolveExprs_unlined context d arguments]
  | .set object _ value, w => by
      simp only [Expr.respell, resolveExpr, resolveExpr_unlined context d value,
        resolveExpr_unlined context d object]
  | .this node keyword, w => by
      simp only [Expr.respell, resolveExpr]
      split
      · exact w.unlined_refer node keyword true
      · exact w.unlined_report keyword _

theorem resolveExprs_unlined (context : Context) (d : Nat) : ∀ (es : List (Expr NodeId)) (w : Walk),
    resolveExprs context (Expr.respellAll (.everywhere Token.unlined) d es) w.unlined =
      (resolveExprs context es w).unlined
  | [], _ => rfl
  | e :: es, w => by
      simp only [Expr.respellAll, resolveExprs, resolveExpr_unlined context d e,
        resolveExprs_unlined context d es]

end

theorem resolveOption_unlined (context : Context) (d : Nat) (e : Option (Expr NodeId)) (w : Walk) :
    resolveOption context (Expr.respellOption (.everywhere Token.unlined) d e) w.unlined =
      (resolveOption context e w).unlined := by
  cases e with
  | none => rfl
  | some e => exact resolveExpr_unlined context d e w

mutual

theorem resolveStmt_unlined (context : Context) : ∀ (d : Nat) (s : Stmt NodeId) (w : Walk),
    resolveStmt context (s.respell (.everywhere Token.unlined) d) w.unlined =
      (resolveStmt context s w).unlined
  | d, .expression e, w | d, .print e, w => resolveExpr_unlined context d e w
  | d, .var name initial, w => by
      have hinitial := resolveOption_unlined context d initial (w.declare name)
      rw [← Walk.unlined_declare] at hinitial
      have hdefined := (resolveOption context initial (w.declare name)).unlined_define name
      rw [← hinitial] at hdefined
      exact hdefined
  | d, .block body, w => w.unlined_within (resolveStmts_unlined context (d + 1) body) .empty
  | d, .branch condition consequent none, w => by
      simp only [Stmt.respell, resolveStmt, resolveExpr_unlined context d condition,
        resolveStmt_unlined context d consequent]
  | d, .branch condition consequent (some alternative), w => by
      simp only [Stmt.respell, resolveStmt, resolveExpr_unlined context d condition,
        resolveStmt_unlined context d consequent, resolveStmt_unlined context d alternative]
  | d, .loop condition body, w => by
      simp only [Stmt.respell, resolveStmt, resolveExpr_unlined context d condition,
        resolveStmt_unlined context d body]
  | d, .function declaration, w => by
      obtain ⟨name, params, body⟩ := declaration
      have hbody := resolveFunction_unlined context .function (d + 1) ⟨name, params, body⟩
        ((w.declare name).define name)
      rw [← Walk.unlined_define, ← Walk.unlined_declare] at hbody
      exact hbody
  | d, .ret keyword value, w => by
      have hvalue := resolveOption_unlined context d value
        (checkReturn context keyword value.isSome w)
      rw [← checkReturn_unlined] at hvalue
      cases value <;> exact hvalue
  | d, .class_ name methods, w => by
      have hinner := resolveMethods_unlined { context with inClass := true } (d + 2) methods
      have hmethods := Walk.unlined_within ((w.declare name).define name) hinner
      rw [← Walk.unlined_define, ← Walk.unlined_declare] at hmethods
      exact hmethods _

theorem resolveStmts_unlined (context : Context) : ∀ (d : Nat) (ss : List (Stmt NodeId)) (w : Walk),
    resolveStmts context (Stmt.respellAll (.everywhere Token.unlined) d ss) w.unlined =
      (resolveStmts context ss w).unlined
  | _, [], _ => rfl
  | d, s :: ss, w => by
      simp only [Stmt.respellAll, resolveStmts, resolveStmt_unlined context d s,
        resolveStmts_unlined context d ss]

theorem resolveFunction_unlined (context : Context) (role : Role) :
    ∀ (d : Nat) (m : FunctionDecl NodeId) (w : Walk),
      resolveFunction context role (m.respell (.everywhere Token.unlined) d) w.unlined =
        (resolveFunction context role m w).unlined
  | d, ⟨_, params, body⟩, w => by
      rw [FunctionDecl.respell, resolveFunction, resolveFunction]
      refine w.unlined_within (fun w => ?_) .empty
      rw [← resolveStmts_unlined _ d, ← params_unlined]
      rfl

theorem resolveMethods_unlined (context : Context) :
    ∀ (d : Nat) (ms : List (FunctionDecl NodeId)) (w : Walk),
      resolveMethods context (FunctionDecl.respellAll (.everywhere Token.unlined) d ms) w.unlined =
        (resolveMethods context ms w).unlined
  | _, [], _ => rfl
  | d, m :: ms, w => by
      have hrole :
          methodRole (m.respell (.everywhere Token.unlined) d).name = methodRole m.name := by
        cases m
        rfl
      simp only [FunctionDecl.respellAll, resolveMethods, hrole,
        resolveFunction_unlined context _ d m, resolveMethods_unlined context d ms]

end

variable {globals : List String} {p p' : List (Stmt NodeId)}

theorem resolve_unlined (globals : List String) (p : List (Stmt NodeId)) :
    resolve globals (Stmt.unlinedAll p) =
      ⟨(resolve globals p).hops, (resolve globals p).reports.map Diagnostic.unlined⟩ := by
  have hstart : Walk.unlined ⟨[], globals, ∅, #[]⟩ = ⟨[], globals, ∅, #[]⟩ := by
    simp [Walk.unlined]
  have hwalk := resolveStmts_unlined .topLevel 0 p ⟨[], globals, ∅, #[]⟩
  rw [hstart] at hwalk
  simp only [resolve, Stmt.unlinedAll, hwalk, Walk.unlined, Array.toList_map]

/-- In programs that are the same but for their labels and lines the same is found: the same reports
but for their lines, and the same distances under corresponding labels. -/
theorem resolve_relined (hshape : Stmt.unlinedAll (Stmt.shapeAll p') =
      Stmt.unlinedAll (Stmt.shapeAll p))
    (hnodup : ((Stmt.referencesAll p).map Reference.label).Nodup)
    (hnodup' : ((Stmt.referencesAll p').map Reference.label).Nodup) :
    (resolve globals p').reports.map Diagnostic.unlined =
        (resolve globals p).reports.map Diagnostic.unlined ∧
      ∃ f : NodeId → NodeId, (Stmt.referencesAll p').map Reference.label =
          ((Stmt.referencesAll p).map Reference.label).map f ∧
        ∀ node distance, (resolve globals p').hops[node]? = some distance ↔
          ∃ n, f n = node ∧ (resolve globals p).hops[n]? = some distance := by
  have hlabels (p : List (Stmt NodeId)) :
      (Stmt.referencesAll (Stmt.unlinedAll p)).map Reference.label =
        (Stmt.referencesAll p).map Reference.label := Stmt.labels_respellAll _ 0 p
  -- without their lines the programs differ in labels only
  rw [← Stmt.shapeAll_unlinedAll, ← Stmt.shapeAll_unlinedAll] at hshape
  obtain ⟨f, hf, hmap⟩ := Stmt.exists_relabelAll_eq hshape.symm (hlabels p ▸ hnodup)
  rw [hlabels, hlabels] at hmap
  have hreports := reports_relabel f globals (Stmt.unlinedAll p)
  have hhops {node : NodeId} (hnode : node ∈ (Stmt.referencesAll p).map Reference.label) :
      (resolve globals p').hops[f node]? = (resolve globals p).hops[node]? := by
    have h : (resolve globals (Stmt.relabelAll f (Stmt.unlinedAll p))).hops[f node]? =
        (resolve globals (Stmt.unlinedAll p)).hops[node]? :=
      hops_relabel (by rwa [hlabels]) (by rwa [hlabels, ← hmap]) (by rwa [hlabels])
    rwa [hf, resolve_unlined, resolve_unlined] at h
  rw [hf, resolve_unlined, resolve_unlined] at hreports
  refine ⟨hreports, f, hmap, fun node distance => ⟨fun h => ?_, ?_⟩⟩
  · have hmem := mem_labels_of_hops h
    rw [hmap] at hmem
    obtain ⟨n, hn, rfl⟩ := List.mem_map.mp hmem
    exact ⟨n, rfl, (hhops hn).symm.trans h⟩
  · rintro ⟨n, rfl, h⟩
    exact (hhops (mem_labels_of_hops h)).trans h

end Resolution

end Lox
