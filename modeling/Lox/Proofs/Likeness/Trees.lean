import Lox.Tree
import Mathlib.Data.List.Forall2
import Mathlib.Data.Option.Basic

namespace Lox

variable {Label : Type}

/-- Which token may stand in the place of which: where a fault can be found, where a variable is
referred to, where one is declared, and where a function or a class is. -/
structure Likeness (Label : Type) where
  token : Token → Token → Prop
  reference : List Bool → Label → Token → Token → Prop
  binder : List Bool → Token → Token → Prop
  title : List Bool → Token → Token → Prop

mutual

inductive Expr.Alike (L : Likeness Label) (Δ : List Bool) : Expr Label → Expr Label → Prop
  | literal {value : Literal} : Expr.Alike L Δ (.literal value) (.literal value)
  | grouping {e e' : Expr Label} (h : Expr.Alike L Δ e e') :
      Expr.Alike L Δ (.grouping e) (.grouping e')
  | unary {operator operator' : Token} {e e' : Expr Label} (hoperator : L.token operator operator')
      (h : Expr.Alike L Δ e e') : Expr.Alike L Δ (.unary operator e) (.unary operator' e')
  | binary {operator operator' : Token} {a a' b b' : Expr Label} (ha : Expr.Alike L Δ a a')
      (hoperator : L.token operator operator') (hb : Expr.Alike L Δ b b') :
      Expr.Alike L Δ (.binary a operator b) (.binary a' operator' b')
  | logical {operator operator' : Token} {a a' b b' : Expr Label} (ha : Expr.Alike L Δ a a')
      (hoperator : L.token operator operator') (hb : Expr.Alike L Δ b b') :
      Expr.Alike L Δ (.logical a operator b) (.logical a' operator' b')
  | var {label : Label} {name name' : Token} (hname : L.reference Δ label name name') :
      Expr.Alike L Δ (.var label name) (.var label name')
  | assign {label : Label} {name name' : Token} {e e' : Expr Label}
      (hname : L.reference Δ label name name') (h : Expr.Alike L Δ e e') :
      Expr.Alike L Δ (.assign label name e) (.assign label name' e')
  | call {callee callee' : Expr Label} {paren paren' : Token} {es es' : List (Expr Label)}
      (hcallee : Expr.Alike L Δ callee callee') (hparen : L.token paren paren')
      (hes : Expr.AlikeAll L Δ es es') :
      Expr.Alike L Δ (.call callee paren es) (.call callee' paren' es')
  | get {object object' : Expr Label} {name name' : Token}
      (hobject : Expr.Alike L Δ object object') (hname : L.token name name') :
      Expr.Alike L Δ (.get object name) (.get object' name')
  | set {object object' value value' : Expr Label} {name name' : Token}
      (hobject : Expr.Alike L Δ object object') (hname : L.token name name')
      (hvalue : Expr.Alike L Δ value value') :
      Expr.Alike L Δ (.set object name value) (.set object' name' value')
  | this {label : Label} {keyword keyword' : Token}
      (hkeyword : L.reference Δ label keyword keyword') :
      Expr.Alike L Δ (.this label keyword) (.this label keyword')

inductive Expr.AlikeAll (L : Likeness Label) (Δ : List Bool) :
    List (Expr Label) → List (Expr Label) → Prop
  | nil : Expr.AlikeAll L Δ [] []
  | cons {e e' : Expr Label} {es es' : List (Expr Label)} (h : Expr.Alike L Δ e e')
      (hs : Expr.AlikeAll L Δ es es') : Expr.AlikeAll L Δ (e :: es) (e' :: es')

end

inductive Expr.AlikeOption (L : Likeness Label) (Δ : List Bool) :
    Option (Expr Label) → Option (Expr Label) → Prop
  | none : Expr.AlikeOption L Δ none none
  | some {e e' : Expr Label} (h : Expr.Alike L Δ e e') : Expr.AlikeOption L Δ (some e) (some e')

mutual

inductive Stmt.Alike (L : Likeness Label) : List Bool → Stmt Label → Stmt Label → Prop
  | expression {Δ : List Bool} {e e' : Expr Label} (h : Expr.Alike L Δ e e') :
      Stmt.Alike L Δ (.expression e) (.expression e')
  | print {Δ : List Bool} {e e' : Expr Label} (h : Expr.Alike L Δ e e') :
      Stmt.Alike L Δ (.print e) (.print e')
  | var {Δ : List Bool} {name name' : Token} {initial initial' : Option (Expr Label)}
      (hname : L.binder Δ name name') (h : Expr.AlikeOption L Δ initial initial') :
      Stmt.Alike L Δ (.var name initial) (.var name' initial')
  | block {Δ : List Bool} {mark : Bool} {body body' : List (Stmt Label)}
      (h : Stmt.AlikeAll L (mark :: Δ) body body') : Stmt.Alike L Δ (.block body) (.block body')
  | branch {Δ : List Bool} {e e' : Expr Label} {s s' : Stmt Label} (he : Expr.Alike L Δ e e')
      (hs : Stmt.Alike L Δ s s') : Stmt.Alike L Δ (.branch e s none) (.branch e' s' none)
  | branches {Δ : List Bool} {e e' : Expr Label} {s s' other other' : Stmt Label}
      (he : Expr.Alike L Δ e e') (hs : Stmt.Alike L Δ s s') (hother : Stmt.Alike L Δ other other') :
      Stmt.Alike L Δ (.branch e s (some other)) (.branch e' s' (some other'))
  | loop {Δ : List Bool} {e e' : Expr Label} {s s' : Stmt Label} (he : Expr.Alike L Δ e e')
      (hs : Stmt.Alike L Δ s s') : Stmt.Alike L Δ (.loop e s) (.loop e' s')
  | function {Δ : List Bool} {d d' : FunctionDecl Label} (hname : L.title Δ d.name d'.name)
      (h : FunctionDecl.Alike L Δ d d') : Stmt.Alike L Δ (.function d) (.function d')
  | ret {Δ : List Bool} {keyword keyword' : Token} {value value' : Option (Expr Label)}
      (hkeyword : L.token keyword keyword') (h : Expr.AlikeOption L Δ value value') :
      Stmt.Alike L Δ (.ret keyword value) (.ret keyword' value')
  | class_ {Δ : List Bool} {name name' : Token} {methods methods' : List (FunctionDecl Label)}
      (hname : L.title Δ name name') (h : FunctionDecl.AlikeAll L (false :: Δ) methods methods') :
      Stmt.Alike L Δ (.class_ name methods) (.class_ name' methods')

inductive Stmt.AlikeAll (L : Likeness Label) :
    List Bool → List (Stmt Label) → List (Stmt Label) → Prop
  | nil {Δ : List Bool} : Stmt.AlikeAll L Δ [] []
  | cons {Δ : List Bool} {s s' : Stmt Label} {ss ss' : List (Stmt Label)} (h : Stmt.Alike L Δ s s')
      (hs : Stmt.AlikeAll L Δ ss ss') : Stmt.AlikeAll L Δ (s :: ss) (s' :: ss')

inductive FunctionDecl.Alike (L : Likeness Label) :
    List Bool → FunctionDecl Label → FunctionDecl Label → Prop
  | mk {Δ : List Bool} {mark : Bool} {name name' : Token} {params params' : List Token}
      {body body' : List (Stmt Label)} (hname : L.token name name')
      (hparams : List.Forall₂ (L.binder (mark :: Δ)) params params')
      (h : Stmt.AlikeAll L (mark :: Δ) body body') :
      FunctionDecl.Alike L Δ ⟨name, params, body⟩ ⟨name', params', body'⟩

inductive FunctionDecl.AlikeAll (L : Likeness Label) :
    List Bool → List (FunctionDecl Label) → List (FunctionDecl Label) → Prop
  | nil {Δ : List Bool} : FunctionDecl.AlikeAll L Δ [] []
  | cons {Δ : List Bool} {d d' : FunctionDecl Label} {ds ds' : List (FunctionDecl Label)}
      (h : FunctionDecl.Alike L Δ d d') (hs : FunctionDecl.AlikeAll L Δ ds ds') :
      FunctionDecl.AlikeAll L Δ (d :: ds) (d' :: ds')

end

/-- The second likeness allows all that the first one does. -/
structure Likeness.Le (L L' : Likeness Label) : Prop where
  token : ∀ t t', L.token t t' → L'.token t t'
  reference : ∀ Δ label t t', L.reference Δ label t t' → L'.reference Δ label t t'
  binder : ∀ Δ t t', L.binder Δ t t' → L'.binder Δ t t'
  title : ∀ Δ t t', L.title Δ t t' → L'.title Δ t t'

variable {L L' : Likeness Label}

mutual

theorem Expr.Alike.mono (hL : L.Le L') {Δ : List Bool} :
    ∀ {e e' : Expr Label}, Expr.Alike L Δ e e' → Expr.Alike L' Δ e e'
  | _, _, .literal => .literal
  | _, _, .grouping h => .grouping (h.mono hL)
  | _, _, .unary hoperator h => .unary (hL.token _ _ hoperator) (h.mono hL)
  | _, _, .binary ha hoperator hb => .binary (ha.mono hL) (hL.token _ _ hoperator) (hb.mono hL)
  | _, _, .logical ha hoperator hb => .logical (ha.mono hL) (hL.token _ _ hoperator) (hb.mono hL)
  | _, _, .var hname => .var (hL.reference _ _ _ _ hname)
  | _, _, .assign hname h => .assign (hL.reference _ _ _ _ hname) (h.mono hL)
  | _, _, .call hcallee hparen hes => .call (hcallee.mono hL) (hL.token _ _ hparen) (hes.mono hL)
  | _, _, .get hobject hname => .get (hobject.mono hL) (hL.token _ _ hname)
  | _, _, .set hobject hname hvalue => .set (hobject.mono hL) (hL.token _ _ hname) (hvalue.mono hL)
  | _, _, .this hkeyword => .this (hL.reference _ _ _ _ hkeyword)

theorem Expr.AlikeAll.mono (hL : L.Le L') {Δ : List Bool} :
    ∀ {es es' : List (Expr Label)}, Expr.AlikeAll L Δ es es' → Expr.AlikeAll L' Δ es es'
  | _, _, .nil => .nil
  | _, _, .cons h hs => .cons (h.mono hL) (hs.mono hL)

end

theorem Expr.AlikeOption.mono (hL : L.Le L') {Δ : List Bool} {e e' : Option (Expr Label)}
    (h : Expr.AlikeOption L Δ e e') : Expr.AlikeOption L' Δ e e' := by
  cases h with
  | none => exact .none
  | some h => exact .some (h.mono hL)

mutual

theorem Stmt.Alike.mono (hL : L.Le L') :
    ∀ {Δ : List Bool} {s s' : Stmt Label}, Stmt.Alike L Δ s s' → Stmt.Alike L' Δ s s'
  | _, _, _, .expression h => .expression (h.mono hL)
  | _, _, _, .print h => .print (h.mono hL)
  | _, _, _, .var hname h => .var (hL.binder _ _ _ hname) (h.mono hL)
  | _, _, _, .block h => .block (h.mono hL)
  | _, _, _, .branch he hs => .branch (he.mono hL) (hs.mono hL)
  | _, _, _, .branches he hs hother => .branches (he.mono hL) (hs.mono hL) (hother.mono hL)
  | _, _, _, .loop he hs => .loop (he.mono hL) (hs.mono hL)
  | _, _, _, .function hname h => .function (hL.title _ _ _ hname) (h.mono hL)
  | _, _, _, .ret hkeyword h => .ret (hL.token _ _ hkeyword) (h.mono hL)
  | _, _, _, .class_ hname h => .class_ (hL.title _ _ _ hname) (h.mono hL)

theorem Stmt.AlikeAll.mono (hL : L.Le L') :
    ∀ {Δ : List Bool} {ss ss' : List (Stmt Label)}, Stmt.AlikeAll L Δ ss ss' →
      Stmt.AlikeAll L' Δ ss ss'
  | _, _, _, .nil => .nil
  | _, _, _, .cons h hs => .cons (h.mono hL) (hs.mono hL)

theorem FunctionDecl.Alike.mono (hL : L.Le L') :
    ∀ {Δ : List Bool} {d d' : FunctionDecl Label}, FunctionDecl.Alike L Δ d d' →
      FunctionDecl.Alike L' Δ d d'
  | _, _, _, .mk hname hparams h =>
      .mk (hL.token _ _ hname) (hparams.imp fun _ _ h => hL.binder _ _ _ h) (h.mono hL)

theorem FunctionDecl.AlikeAll.mono (hL : L.Le L') :
    ∀ {Δ : List Bool} {ds ds' : List (FunctionDecl Label)}, FunctionDecl.AlikeAll L Δ ds ds' →
      FunctionDecl.AlikeAll L' Δ ds ds'
  | _, _, _, .nil => .nil
  | _, _, _, .cons h hs => .cons (h.mono hL) (hs.mono hL)

end

end Lox
