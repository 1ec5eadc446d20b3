import Lox.Proofs.Scoping.Sites
import Lox.Proofs.Syntax.StatementReading
import Lox.Tree.Numbering

namespace Lox

open Parsing

theorem Parsing.ReadsAsVariable.orderly {ts : List Token} {s : Stmt Unit}
    (h : ReadsAsVariable ts s) : s.orderly := by
  cases h <;> rfl

theorem Parsing.ReadsAsInitial.orderly {ts : List Token} {initial : Option (Stmt Unit)}
    (h : ReadsAsInitial ts initial) : ∀ s ∈ initial, s.orderly := by
  cases h with
  | none => simp
  | var_ _ h =>
      rintro _ ⟨⟩
      exact h.orderly
  | expression =>
      rintro _ ⟨⟩
      rfl

theorem Parsing.forLoop_orderly {initial : Option (Stmt Unit)}
    {condition increment : Option (Expr Unit)} {body : Stmt Unit}
    (hinitial : ∀ s ∈ initial, s.orderly) (hplain : body.plain) (hbody : body.orderly) :
    (forLoop initial condition increment body).plain ∧
      (forLoop initial condition increment body).orderly := by
  unfold forLoop
  cases increment <;> cases initial <;>
    simp_all [Stmt.plain, Stmt.orderly, Stmt.orderlyAll]

/-- What makes a phrase orderly. -/
def Parsing.StmtPhrase.orderly : StmtPhrase → Prop
  | .declaration s => s.orderly
  | .statement _ s => s.plain ∧ s.orderly
  | .declarations ss => Stmt.orderlyAll ss
  | .function d => d.orderly
  | .methods ds => FunctionDecl.orderlyAll ds

theorem Parsing.ReadsAsStmt.orderly {ts : List Token} {p : StmtPhrase} (h : ReadsAsStmt ts p) :
    p.orderly := by
  induction h with
  | expression | print | ret => exact ⟨rfl, rfl⟩
  | block _ _ _ ih => exact ⟨rfl, ih⟩
  | branch _ _ _ _ _ ih => exact ⟨rfl, by simp [Stmt.orderly, ih.1, ih.2]⟩
  | branches _ _ _ _ _ _ _ ih ihother =>
      exact ⟨rfl, by simp [Stmt.orderly, ih.1, ih.2, ihother.1, ihother.2]⟩
  | loop _ _ _ _ _ ih => exact ⟨rfl, by simp [Stmt.orderly, ih.1, ih.2]⟩
  | forLoop _ _ hinitial _ _ _ _ _ ih => exact forLoop_orderly hinitial.orderly ih.1 ih.2
  | statement _ ih => exact ih.2
  | var_ _ h => exact h.orderly
  | function _ _ ih => exact ih
  | class_ _ _ _ _ _ ih => exact ih
  | noDeclarations => rfl
  | declarations _ _ ihs ihss => simpa [StmtPhrase.orderly, Stmt.orderlyAll] using ⟨ihs, ihss⟩
  | noMethods => rfl
  | methods _ _ ihd ihds => simpa [StmtPhrase.orderly, FunctionDecl.orderlyAll] using ⟨ihd, ihds⟩
  | body _ _ _ _ _ _ _ ih => exact ih

variable {Label : Type}

theorem Stmt.plain_numbered (next : NodeId) (s : Stmt Label) :
    (s.numbered next).1.plain = s.plain := by
  unfold Stmt.numbered
  split <;> rfl

mutual

theorem Stmt.orderly_numbered :
    ∀ (next : NodeId) (s : Stmt Label), (s.numbered next).1.orderly = s.orderly
  | _, .expression _ | _, .print _ | _, .var _ _ | _, .ret _ _ => rfl
  | next, .block body => Stmt.orderlyAll_numbered next body
  | next, .branch condition consequent none => by
      simp [Stmt.numbered, Stmt.orderly, Stmt.orderly_numbered _ consequent, Stmt.plain_numbered]
  | next, .branch condition consequent (some alternative) => by
      simp [Stmt.numbered, Stmt.orderly, Stmt.orderly_numbered _ consequent,
        Stmt.orderly_numbered _ alternative, Stmt.plain_numbered]
  | next, .loop condition body => by
      simp [Stmt.numbered, Stmt.orderly, Stmt.orderly_numbered _ body, Stmt.plain_numbered]
  | next, .function declaration => FunctionDecl.orderly_numbered next declaration
  | next, .class_ _ methods => FunctionDecl.orderlyAll_numbered next methods

theorem Stmt.orderlyAll_numbered :
    ∀ (next : NodeId) (ss : List (Stmt Label)),
      Stmt.orderlyAll (Stmt.numberedList next ss).1 = Stmt.orderlyAll ss
  | _, [] => rfl
  | next, s :: ss => by
      simp [Stmt.numberedList, Stmt.orderlyAll, Stmt.orderly_numbered _ s,
        Stmt.orderlyAll_numbered _ ss]

theorem FunctionDecl.orderly_numbered :
    ∀ (next : NodeId) (d : FunctionDecl Label), (d.numbered next).1.orderly = d.orderly
  | next, ⟨_, _, body⟩ => by
      simp [FunctionDecl.numbered, FunctionDecl.orderly, Stmt.orderlyAll_numbered _ body]

theorem FunctionDecl.orderlyAll_numbered :
    ∀ (next : NodeId) (ds : List (FunctionDecl Label)),
      FunctionDecl.orderlyAll (FunctionDecl.numberedList next ds).1 = FunctionDecl.orderlyAll ds
  | _, [] => rfl
  | next, d :: ds => by
      simp [FunctionDecl.numberedList, FunctionDecl.orderlyAll, FunctionDecl.orderly_numbered _ d,
        FunctionDecl.orderlyAll_numbered _ ds]

end

end Lox
