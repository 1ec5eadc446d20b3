import Lox.Tree

/-!
Identities for the nodes that refer to names.

The nodes of a tree are numbered in the order of its text, from a number that the caller keeps.
Numbering one tree from where the last one stopped gives no number twice.
-/

namespace Lox

variable {Label : Type}

mutual

/-- The tree with its references numbered from `next`, and the number after the last one used. -/
def Expr.numbered (next : NodeId) : Expr Label → Expr NodeId × NodeId
  | .literal value => (.literal value, next)
  | .grouping inner =>
      let (inner, next) := inner.numbered next
      (.grouping inner, next)
  | .unary operator operand =>
      let (operand, next) := operand.numbered next
      (.unary operator operand, next)
  | .binary left operator right =>
      let (left, next) := left.numbered next
      let (right, next) := right.numbered next
      (.binary left operator right, next)
  | .logical left operator right =>
      let (left, next) := left.numbered next
      let (right, next) := right.numbered next
      (.logical left operator right, next)
  | .var _ name => (.var next name, next + 1)
  | .assign _ name value =>
      let (value, after) := value.numbered (next + 1)
      (.assign next name value, after)
  | .call callee paren arguments =>
      let (callee, next) := callee.numbered next
      let (arguments, next) := Expr.numberedList next arguments
      (.call callee paren arguments, next)
  | .get object name =>
      let (object, next) := object.numbered next
      (.get object name, next)
  | .set object name value =>
      let (object, next) := object.numbered next
      let (value, next) := value.numbered next
      (.set object name value, next)
  | .this _ keyword => (.this next keyword, next + 1)

def Expr.numberedList (next : NodeId) : List (Expr Label) → List (Expr NodeId) × NodeId
  | [] => ([], next)
  | e :: es =>
      let (e, next) := e.numbered next
      let (es, next) := Expr.numberedList next es
      (e :: es, next)

end

def Expr.numberedOption (next : NodeId) : Option (Expr Label) → Option (Expr NodeId) × NodeId
  | none => (none, next)
  | some e =>
      let (e, next) := e.numbered next
      (some e, next)

mutual

def Stmt.numbered (next : NodeId) : Stmt Label → Stmt NodeId × NodeId
  | .expression e =>
      let (e, next) := e.numbered next
      (.expression e, next)
  | .print e =>
      let (e, next) := e.numbered next
      (.print e, next)
  | .var name initial =>
      let (initial, next) := Expr.numberedOption next initial
      (.var name initial, next)
  | .block body =>
      let (body, next) := Stmt.numberedList next body
      (.block body, next)
  | .branch condition consequent none =>
      let (condition, next) := condition.numbered next
      let (consequent, next) := consequent.numbered next
      (.branch condition consequent none, next)
  | .branch condition consequent (some alternative) =>
      let (condition, next) := condition.numbered next
      let (consequent, next) := consequent.numbered next
      let (alternative, next) := alternative.numbered next
      (.branch condition consequent (some alternative), next)
  | .loop condition body =>
      let (condition, next) := condition.numbered next
      let (body, next) := body.numbered next
      (.loop condition body, next)
  | .function declaration =>
      let (declaration, next) := declaration.numbered next
      (.function declaration, next)
  | .ret keyword value =>
      let (value, next) := Expr.numberedOption next value
      (.ret keyword value, next)
  | .class_ name methods =>
      let (methods, next) := FunctionDecl.numberedList next methods
      (.class_ name methods, next)

def Stmt.numberedList (next : NodeId) : List (Stmt Label) → List (Stmt NodeId) × NodeId
  | [] => ([], next)
  | s :: ss =>
      let (s, next) := s.numbered next
      let (ss, next) := Stmt.numberedList next ss
      (s :: ss, next)

def FunctionDecl.numbered (next : NodeId) : FunctionDecl Label → FunctionDecl NodeId × NodeId
  | ⟨name, params, body⟩ =>
      let (body, next) := Stmt.numberedList next body
      (⟨name, params, body⟩, next)

def FunctionDecl.numberedList (next : NodeId) :
    List (FunctionDecl Label) → List (FunctionDecl NodeId) × NodeId
  | [] => ([], next)
  | m :: ms =>
      let (m, next) := m.numbered next
      let (ms, next) := FunctionDecl.numberedList next ms
      (m :: ms, next)

end

end Lox
