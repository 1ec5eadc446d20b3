import Lox.Proofs.Likeness.Reading
import Lox.Tree.Numbering

namespace Lox

variable {R : Token → Token → Prop}

mutual

theorem Expr.of_alike_numbered {Δ : List Bool} :
    ∀ (next : NodeId) (e : Expr Unit) {p : Expr NodeId},
      Expr.Alike (.ofTokens R) Δ (e.numbered next).1 p →
        ∃ e', Expr.Alike (.ofTokens R) Δ e e' ∧ e'.numbered next = (p, (e.numbered next).2)
  | _, .literal _, _, .literal => ⟨_, .literal, rfl⟩
  | next, .grouping inner, _, .grouping h => by
      obtain ⟨_, hinner, hnumbered⟩ := Expr.of_alike_numbered next inner h
      exact ⟨_, .grouping hinner, by simp [Expr.numbered, hnumbered]⟩
  | next, .unary _ operand, _, .unary hoperator h => by
      obtain ⟨_, hoperand, hnumbered⟩ := Expr.of_alike_numbered next operand h
      exact ⟨_, .unary hoperator hoperand, by simp [Expr.numbered, hnumbered]⟩
  | next, .binary left _ right, _, .binary ha hoperator hb => by
      obtain ⟨_, hleft, hnumbered⟩ := Expr.of_alike_numbered next left ha
      obtain ⟨_, hright, hnumbered'⟩ := Expr.of_alike_numbered _ right hb
      exact ⟨_, .binary hleft hoperator hright, by simp [Expr.numbered, hnumbered, hnumbered']⟩
  | next, .logical left _ right, _, .logical ha hoperator hb => by
      obtain ⟨_, hleft, hnumbered⟩ := Expr.of_alike_numbered next left ha
      obtain ⟨_, hright, hnumbered'⟩ := Expr.of_alike_numbered _ right hb
      exact ⟨_, .logical hleft hoperator hright, by simp [Expr.numbered, hnumbered, hnumbered']⟩
  | _, .var _ _, _, .var hname => ⟨_, .var hname, rfl⟩
  | next, .assign _ _ value, _, .assign hname h => by
      obtain ⟨_, hvalue, hnumbered⟩ := Expr.of_alike_numbered (next + 1) value h
      exact ⟨_, .assign hname hvalue, by simp [Expr.numbered, hnumbered]⟩
  | next, .call callee _ arguments, _, .call hcallee hparen hes => by
      obtain ⟨_, hcallee', hnumbered⟩ := Expr.of_alike_numbered next callee hcallee
      obtain ⟨_, harguments, hnumbered'⟩ := Expr.of_alike_numberedList _ arguments hes
      exact ⟨_, .call hcallee' hparen harguments, by simp [Expr.numbered, hnumbered, hnumbered']⟩
  | next, .get object _, _, .get hobject hname => by
      obtain ⟨_, hobject', hnumbered⟩ := Expr.of_alike_numbered next object hobject
      exact ⟨_, .get hobject' hname, by simp [Expr.numbered, hnumbered]⟩
  | next, .set object _ value, _, .set hobject hname hvalue => by
      obtain ⟨_, hobject', hnumbered⟩ := Expr.of_alike_numbered next object hobject
      obtain ⟨_, hvalue', hnumbered'⟩ := Expr.of_alike_numbered _ value hvalue
      exact ⟨_, .set hobject' hname hvalue', by simp [Expr.numbered, hnumbered, hnumbered']⟩
  | _, .this _ _, _, .this hkeyword => ⟨_, .this hkeyword, rfl⟩

theorem Expr.of_alike_numberedList {Δ : List Bool} :
    ∀ (next : NodeId) (es : List (Expr Unit)) {ps : List (Expr NodeId)},
      Expr.AlikeAll (.ofTokens R) Δ (Expr.numberedList next es).1 ps →
        ∃ es', Expr.AlikeAll (.ofTokens R) Δ es es' ∧
          Expr.numberedList next es' = (ps, (Expr.numberedList next es).2)
  | _, [], _, .nil => ⟨[], .nil, rfl⟩
  | next, e :: es, _, .cons h hs => by
      obtain ⟨_, he, hnumbered⟩ := Expr.of_alike_numbered next e h
      obtain ⟨_, hes, hnumbered'⟩ := Expr.of_alike_numberedList _ es hs
      exact ⟨_, .cons he hes, by simp [Expr.numberedList, hnumbered, hnumbered']⟩

end

theorem Expr.of_alike_numberedOption {Δ : List Bool} (next : NodeId) (e : Option (Expr Unit))
    {p : Option (Expr NodeId)}
    (h : Expr.AlikeOption (.ofTokens R) Δ (Expr.numberedOption next e).1 p) :
    ∃ e', Expr.AlikeOption (.ofTokens R) Δ e e' ∧
      Expr.numberedOption next e' = (p, (Expr.numberedOption next e).2) := by
  cases e with
  | none =>
      cases h
      exact ⟨none, .none, rfl⟩
  | some e =>
      cases h with
      | some h =>
          obtain ⟨e', he, hnumbered⟩ := Expr.of_alike_numbered next e h
          exact ⟨some e', .some he, by simp [Expr.numberedOption, hnumbered]⟩

mutual

theorem Stmt.of_alike_numbered :
    ∀ {Δ : List Bool} (next : NodeId) (s : Stmt Unit) {p : Stmt NodeId},
      Stmt.Alike (.ofTokens R) Δ (s.numbered next).1 p →
        ∃ s', Stmt.Alike (.ofTokens R) Δ s s' ∧ s'.numbered next = (p, (s.numbered next).2)
  | _, next, .expression e, _, .expression h => by
      obtain ⟨_, he, hnumbered⟩ := Expr.of_alike_numbered next e h
      exact ⟨_, .expression he, by simp [Stmt.numbered, hnumbered]⟩
  | _, next, .print e, _, .print h => by
      obtain ⟨_, he, hnumbered⟩ := Expr.of_alike_numbered next e h
      exact ⟨_, .print he, by simp [Stmt.numbered, hnumbered]⟩
  | _, next, .var _ initial, _, .var hname h => by
      obtain ⟨_, hinitial, hnumbered⟩ := Expr.of_alike_numberedOption next initial h
      exact ⟨_, .var hname hinitial, by simp [Stmt.numbered, hnumbered]⟩
  | _, next, .block body, _, .block h => by
      obtain ⟨_, hbody, hnumbered⟩ := Stmt.of_alike_numberedList next body h
      exact ⟨_, .block hbody, by simp [Stmt.numbered, hnumbered]⟩
  | _, next, .branch condition consequent none, _, .branch he hs => by
      obtain ⟨_, hcondition, hnumbered⟩ := Expr.of_alike_numbered next condition he
      obtain ⟨_, hconsequent, hnumbered'⟩ := Stmt.of_alike_numbered _ consequent hs
      exact ⟨_, .branch hcondition hconsequent, by simp [Stmt.numbered, hnumbered, hnumbered']⟩
  | _, next, .branch condition consequent (some alternative), _, .branches he hs hother => by
      obtain ⟨_, hcondition, hnumbered⟩ := Expr.of_alike_numbered next condition he
      obtain ⟨_, hconsequent, hnumbered'⟩ := Stmt.of_alike_numbered _ consequent hs
      obtain ⟨_, halternative, hnumbered''⟩ := Stmt.of_alike_numbered _ alternative hother
      exact ⟨_, .branches hcondition hconsequent halternative,
        by simp [Stmt.numbered, hnumbered, hnumbered', hnumbered'']⟩
  | _, next, .loop condition body, _, .loop he hs => by
      obtain ⟨_, hcondition, hnumbered⟩ := Expr.of_alike_numbered next condition he
      obtain ⟨_, hbody, hnumbered'⟩ := Stmt.of_alike_numbered _ body hs
      exact ⟨_, .loop hcondition hbody, by simp [Stmt.numbered, hnumbered, hnumbered']⟩
  | _, next, .function ⟨name, params, body⟩, _, .function hname h => by
      obtain ⟨⟨name', params', body'⟩, hd, hnumbered⟩ :=
        FunctionDecl.of_alike_numbered next ⟨name, params, body⟩ h
      simp only [FunctionDecl.numbered, Prod.mk.injEq] at hnumbered
      obtain ⟨rfl, hnext⟩ := hnumbered
      exact ⟨.function ⟨name', params', body'⟩, .function hname hd,
        by simp [Stmt.numbered, FunctionDecl.numbered, hnext]⟩
  | _, next, .ret _ value, _, .ret hkeyword h => by
      obtain ⟨_, hvalue, hnumbered⟩ := Expr.of_alike_numberedOption next value h
      exact ⟨_, .ret hkeyword hvalue, by simp [Stmt.numbered, hnumbered]⟩
  | _, next, .class_ _ methods, _, .class_ hname h => by
      obtain ⟨_, hmethods, hnumbered⟩ := FunctionDecl.of_alike_numberedList next methods h
      exact ⟨_, .class_ hname hmethods, by simp [Stmt.numbered, hnumbered]⟩

theorem Stmt.of_alike_numberedList :
    ∀ {Δ : List Bool} (next : NodeId) (ss : List (Stmt Unit)) {ps : List (Stmt NodeId)},
      Stmt.AlikeAll (.ofTokens R) Δ (Stmt.numberedList next ss).1 ps →
        ∃ ss', Stmt.AlikeAll (.ofTokens R) Δ ss ss' ∧
          Stmt.numberedList next ss' = (ps, (Stmt.numberedList next ss).2)
  | _, _, [], _, .nil => ⟨[], .nil, rfl⟩
  | _, next, s :: ss, _, .cons h hs => by
      obtain ⟨_, hs', hnumbered⟩ := Stmt.of_alike_numbered next s h
      obtain ⟨_, hss', hnumbered'⟩ := Stmt.of_alike_numberedList _ ss hs
      exact ⟨_, .cons hs' hss', by simp [Stmt.numberedList, hnumbered, hnumbered']⟩

theorem FunctionDecl.of_alike_numbered :
    ∀ {Δ : List Bool} (next : NodeId) (d : FunctionDecl Unit) {p : FunctionDecl NodeId},
      FunctionDecl.Alike (.ofTokens R) Δ (d.numbered next).1 p →
        ∃ d', FunctionDecl.Alike (.ofTokens R) Δ d d' ∧
          d'.numbered next = (p, (d.numbered next).2)
  | _, next, ⟨_, _, body⟩, _, .mk hname hparams h => by
      obtain ⟨_, hbody, hnumbered⟩ := Stmt.of_alike_numberedList next body h
      exact ⟨_, .mk hname hparams hbody, by simp [FunctionDecl.numbered, hnumbered]⟩

theorem FunctionDecl.of_alike_numberedList :
    ∀ {Δ : List Bool} (next : NodeId) (ds : List (FunctionDecl Unit))
      {ps : List (FunctionDecl NodeId)},
      FunctionDecl.AlikeAll (.ofTokens R) Δ (FunctionDecl.numberedList next ds).1 ps →
        ∃ ds', FunctionDecl.AlikeAll (.ofTokens R) Δ ds ds' ∧
          FunctionDecl.numberedList next ds' = (ps, (FunctionDecl.numberedList next ds).2)
  | _, _, [], _, .nil => ⟨[], .nil, rfl⟩
  | _, next, d :: ds, _, .cons h hs => by
      obtain ⟨_, hd, hnumbered⟩ := FunctionDecl.of_alike_numbered next d h
      obtain ⟨_, hds, hnumbered'⟩ := FunctionDecl.of_alike_numberedList _ ds hs
      exact ⟨_, .cons hd hds, by simp [FunctionDecl.numberedList, hnumbered, hnumbered']⟩

end

end Lox
