import Lox.Proofs.Scoping.Occurrences

namespace Lox

namespace Resolution

/-- The frames after some names are declared in the innermost one. -/
def introduced (names : List Token) (frames : List Frame) : List Frame :=
  names.foldl (fun frames name => frames.modifyHead fun F => F.insert name.lexeme true) frames

theorem introduced_append (names more : List Token) (frames : List Frame) :
    introduced (names ++ more) frames = introduced more (introduced names frames) :=
  List.foldl_append

theorem tail_introduced (names : List Token) (frames : List Frame) :
    (introduced names frames).tail = frames.tail := by
  induction names generalizing frames with
  | nil => rfl
  | cons name names ih =>
      refine (ih _).trans ?_
      cases frames <;> rfl

theorem frames_refer (w : Walk) (node : NodeId) (name : Token) (reading : Bool) :
    (w.refer node name reading).frames = w.frames := by
  unfold Walk.refer
  split
  · rfl
  · split <;> rfl

theorem frames_declare (w : Walk) (name : Token) :
    (w.declare name).frames = w.frames.modifyHead fun F => F.insert name.lexeme false := by
  unfold Walk.declare
  split
  · rename_i hframes
    simp [hframes]
  · rename_i F outer hframes
    dsimp only
    split <;> simp [hframes, Walk.report]

theorem frames_define (w : Walk) (name : Token) :
    (w.define name).frames = w.frames.modifyHead fun F => F.insert name.lexeme true := by
  unfold Walk.define
  split <;> simp [*]

theorem frames_define_of_declared {w w' : Walk} {name : Token}
    (h : w'.frames = (w.declare name).frames) :
    (w'.define name).frames = introduced [name] w.frames := by
  rw [frames_define, h, frames_declare]
  cases w.frames with
  | nil => rfl
  | cons F outer => simp [introduced, Bindings.insert_insert]

theorem frames_params (params : List Token) (w : Walk) :
    (params.foldl (fun w param => (w.declare param).define param) w).frames =
      introduced params w.frames := by
  induction params generalizing w with
  | nil => rfl
  | cons param params ih =>
      rw [List.foldl_cons, ih, frames_define_of_declared rfl]
      rfl

theorem frames_within (names : List Token) {w : Walk} {F : Frame} {inner : Walk → Walk}
    (h : ∀ w : Walk, (inner w).frames = introduced names w.frames) :
    (w.within F inner).frames = w.frames := by
  rw [Walk.within, h, tail_introduced]
  rfl

mutual

theorem frames_resolveExpr (context : Context) :
    ∀ (e : Expr NodeId) (w : Walk), (resolveExpr context e w).frames = w.frames
  | .literal _, _ => rfl
  | .grouping inner, w => frames_resolveExpr context inner w
  | .unary _ operand, w => frames_resolveExpr context operand w
  | .binary left _ right, w | .logical left _ right, w =>
      (frames_resolveExpr context right _).trans (frames_resolveExpr context left w)
  | .var node name, w => frames_refer w node name true
  | .assign node name value, w =>
      (frames_refer _ node name false).trans (frames_resolveExpr context value w)
  | .call callee _ arguments, w =>
      (frames_resolveExprs context arguments _).trans (frames_resolveExpr context callee w)
  | .get object _, w => frames_resolveExpr context object w
  | .set object _ value, w =>
      (frames_resolveExpr context object _).trans (frames_resolveExpr context value w)
  | .this node keyword, w => by
      rw [resolveExpr]
      split
      · exact frames_refer w node keyword true
      · rfl

theorem frames_resolveExprs (context : Context) :
    ∀ (es : List (Expr NodeId)) (w : Walk), (resolveExprs context es w).frames = w.frames
  | [], _ => rfl
  | e :: es, w => (frames_resolveExprs context es _).trans (frames_resolveExpr context e w)

end

theorem frames_resolveOption (context : Context) (e : Option (Expr NodeId)) (w : Walk) :
    (resolveOption context e w).frames = w.frames := by
  cases e with
  | none => rfl
  | some e => exact frames_resolveExpr context e w

theorem frames_checkReturn (context : Context) (keyword : Token) (hasValue : Bool) (w : Walk) :
    (checkReturn context keyword hasValue w).frames = w.frames := by
  unfold checkReturn
  split
  · rfl
  · split <;> rfl
  · rfl

mutual

/-- All that a statement does to the frames is to declare its names in the innermost one. -/
theorem frames_resolveStmt (context : Context) :
    ∀ (s : Stmt NodeId) (w : Walk),
      (resolveStmt context s w).frames = introduced s.declared w.frames
  | .expression e, w | .print e, w => frames_resolveExpr context e w
  | .var name initial, w =>
      frames_define_of_declared (frames_resolveOption context initial (w.declare name))
  | .block body, _ => frames_within (body.flatMap Stmt.declared) (frames_resolveStmts context body)
  | .branch condition consequent none, w => by
      rw [resolveStmt, frames_resolveStmt context consequent, frames_resolveExpr]
      rfl
  | .branch condition consequent (some alternative), w => by
      rw [resolveStmt, frames_resolveStmt context alternative,
        frames_resolveStmt context consequent, frames_resolveExpr, ← introduced_append]
      rfl
  | .loop condition body, w => by
      rw [resolveStmt, frames_resolveStmt context body, frames_resolveExpr]
      rfl
  | .function declaration, w =>
      (frames_resolveFunction context .function declaration _).trans
        (frames_define_of_declared rfl)
  | .ret keyword value, w =>
      (frames_resolveOption context value _).trans
        (frames_checkReturn context keyword value.isSome w)
  | .class_ name methods, w =>
      (frames_within [] (frames_resolveMethods { context with inClass := true } methods)).trans
        (frames_define_of_declared rfl)

theorem frames_resolveStmts (context : Context) :
    ∀ (ss : List (Stmt NodeId)) (w : Walk),
      (resolveStmts context ss w).frames = introduced (ss.flatMap Stmt.declared) w.frames
  | [], _ => rfl
  | s :: ss, w => by
      rw [resolveStmts, frames_resolveStmts context ss, frames_resolveStmt context s,
        ← introduced_append]
      rfl

theorem frames_resolveFunction (context : Context) (role : Role) :
    ∀ (d : FunctionDecl NodeId) (w : Walk), (resolveFunction context role d w).frames = w.frames
  | ⟨_, params, body⟩, w => by
      rw [resolveFunction]
      refine frames_within (params ++ body.flatMap Stmt.declared) fun w => ?_
      rw [frames_resolveStmts _ body, frames_params, introduced_append]

theorem frames_resolveMethods (context : Context) :
    ∀ (ms : List (FunctionDecl NodeId)) (w : Walk),
      (resolveMethods context ms w).frames = w.frames
  | [], _ => rfl
  | m :: ms, w =>
      (frames_resolveMethods context ms _).trans
        (frames_resolveFunction context (methodRole m.name) m w)

end

end Resolution

end Lox
