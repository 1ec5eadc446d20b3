import Lox.Parsing.Expression
import Lox.Tree.Numbering

namespace Lox

variable {Label : Type}

/-- A token with its part in a tree. -/
inductive Mark
  | unary (operator : Token)
  | binary (operator : Token)
  | logical (operator : Token)
  /-- The name of a variable that is read. -/
  | reference (name : Token)
  /-- The name of a variable that is assigned to. -/
  | target (name : Token)
  | property (name : Token)
  /-- The name that a declaration or a parameter introduces. -/
  | binder (name : Token)
  | receiver (keyword : Token)

/-- The operators that join two values. -/
def binaryOperators : List Kind :=
  [.symbol .bangEqual, .symbol .equalEqual, .symbol .greater, .symbol .greaterEqual, .symbol .less,
    .symbol .lessEqual, .symbol .minus, .symbol .plus, .symbol .star, .symbol .slash]

def logicalOperators : List Kind := [.keyword .or_, .keyword .and_]

namespace Mark

def token : Mark → Token
  | unary operator | binary operator | logical operator => operator
  | reference name | target name | property name | binder name => name
  | receiver keyword => keyword

/-- The token is of a kind that has this part. -/
def Proper : Mark → Prop
  | unary operator => operator.kind ∈ Parsing.unaryOperators
  | binary operator => operator.kind ∈ binaryOperators
  | logical operator => operator.kind ∈ logicalOperators
  | reference name | target name | property name | binder name => name.kind = .identifier
  | receiver keyword => keyword.kind = .keyword .this_

end Mark

mutual

def Expr.marks : Expr Label → List Mark
  | .literal _ => []
  | .grouping inner => inner.marks
  | .unary operator operand => .unary operator :: operand.marks
  | .binary left operator right => .binary operator :: (left.marks ++ right.marks)
  | .logical left operator right => .logical operator :: (left.marks ++ right.marks)
  | .var _ name => [.reference name]
  | .assign _ name value => .target name :: value.marks
  | .call callee _ arguments => callee.marks ++ Expr.marksAll arguments
  | .get object name => .property name :: object.marks
  | .set object name value => .property name :: (object.marks ++ value.marks)
  | .this _ keyword => [.receiver keyword]

def Expr.marksAll : List (Expr Label) → List Mark
  | [] => []
  | e :: es => e.marks ++ Expr.marksAll es

end

def Expr.marksOption : Option (Expr Label) → List Mark
  | none => []
  | some e => e.marks

mutual

def Stmt.marks : Stmt Label → List Mark
  | .expression e | .print e => e.marks
  | .var name initial => .binder name :: Expr.marksOption initial
  | .block body => Stmt.marksAll body
  | .branch condition consequent none => condition.marks ++ consequent.marks
  | .branch condition consequent (some alternative) =>
      condition.marks ++ (consequent.marks ++ alternative.marks)
  | .loop condition body => condition.marks ++ body.marks
  | .function declaration => declaration.marks
  | .ret _ value => Expr.marksOption value
  | .class_ name methods => .binder name :: FunctionDecl.marksAll methods

def Stmt.marksAll : List (Stmt Label) → List Mark
  | [] => []
  | s :: ss => s.marks ++ Stmt.marksAll ss

def FunctionDecl.marks : FunctionDecl Label → List Mark
  | ⟨name, params, body⟩ => .binder name :: (params.map .binder ++ Stmt.marksAll body)

def FunctionDecl.marksAll : List (FunctionDecl Label) → List Mark
  | [] => []
  | d :: ds => d.marks ++ FunctionDecl.marksAll ds

end

theorem FunctionDecl.marks_eq (d : FunctionDecl Label) :
    d.marks = .binder d.name :: (d.params.map .binder ++ Stmt.marksAll d.body) := by
  cases d
  rfl

theorem FunctionDecl.marks_subset {d : FunctionDecl Label} {ds : List (FunctionDecl Label)}
    (h : d ∈ ds) : d.marks ⊆ FunctionDecl.marksAll ds := by
  induction ds with
  | nil => cases h
  | cons first ds ih =>
      rw [FunctionDecl.marksAll]
      rcases List.mem_cons.mp h with rfl | h
      · exact List.subset_append_left _ _
      · exact List.subset_append_of_subset_right _ (ih h)

theorem Stmt.marksAll_append (before after : List (Stmt Label)) :
    Stmt.marksAll (before ++ after) = Stmt.marksAll before ++ Stmt.marksAll after := by
  induction before with
  | nil => rfl
  | cons s before ih => rw [List.cons_append, Stmt.marksAll, ih, Stmt.marksAll, List.append_assoc]

mutual

theorem Expr.marks_numbered :
    ∀ (next : NodeId) (e : Expr Label), (e.numbered next).1.marks = e.marks
  | _, .literal _ | _, .var _ _ | _, .this _ _ => rfl
  | next, .grouping inner => Expr.marks_numbered next inner
  | next, .unary _ operand => congrArg _ (Expr.marks_numbered next operand)
  | next, .binary left _ right | next, .logical left _ right => by
      simp [Expr.numbered, Expr.marks, Expr.marks_numbered _ left, Expr.marks_numbered _ right]
  | next, .assign _ _ value => congrArg _ (Expr.marks_numbered (next + 1) value)
  | next, .call callee _ arguments => by
      simp [Expr.numbered, Expr.marks, Expr.marks_numbered _ callee,
        Expr.marksAll_numbered _ arguments]
  | next, .get object _ => congrArg _ (Expr.marks_numbered next object)
  | next, .set object _ value => by
      simp [Expr.numbered, Expr.marks, Expr.marks_numbered _ object, Expr.marks_numbered _ value]

theorem Expr.marksAll_numbered :
    ∀ (next : NodeId) (es : List (Expr Label)),
      Expr.marksAll (Expr.numberedList next es).1 = Expr.marksAll es
  | _, [] => rfl
  | next, e :: es => by
      simp [Expr.numberedList, Expr.marksAll, Expr.marks_numbered _ e,
        Expr.marksAll_numbered _ es]

end

theorem Expr.marksOption_numbered (next : NodeId) (e : Option (Expr Label)) :
    Expr.marksOption (Expr.numberedOption next e).1 = Expr.marksOption e := by
  cases e with
  | none => rfl
  | some e => exact Expr.marks_numbered next e

mutual

theorem Stmt.marks_numbered :
    ∀ (next : NodeId) (s : Stmt Label), (s.numbered next).1.marks = s.marks
  | next, .expression e | next, .print e => Expr.marks_numbered next e
  | next, .var _ initial => congrArg _ (Expr.marksOption_numbered next initial)
  | next, .block body => Stmt.marksAll_numbered next body
  | next, .branch condition consequent none => by
      simp [Stmt.numbered, Stmt.marks, Expr.marks_numbered, Stmt.marks_numbered _ consequent]
  | next, .branch condition consequent (some alternative) => by
      simp [Stmt.numbered, Stmt.marks, Expr.marks_numbered, Stmt.marks_numbered _ consequent,
        Stmt.marks_numbered _ alternative]
  | next, .loop condition body => by
      simp [Stmt.numbered, Stmt.marks, Expr.marks_numbered, Stmt.marks_numbered _ body]
  | next, .function declaration => FunctionDecl.marks_numbered next declaration
  | next, .ret _ value => Expr.marksOption_numbered next value
  | next, .class_ _ methods => congrArg _ (FunctionDecl.marksAll_numbered next methods)

theorem Stmt.marksAll_numbered :
    ∀ (next : NodeId) (ss : List (Stmt Label)),
      Stmt.marksAll (Stmt.numberedList next ss).1 = Stmt.marksAll ss
  | _, [] => rfl
  | next, s :: ss => by
      simp [Stmt.numberedList, Stmt.marksAll, Stmt.marks_numbered _ s,
        Stmt.marksAll_numbered _ ss]

theorem FunctionDecl.marks_numbered :
    ∀ (next : NodeId) (d : FunctionDecl Label), (d.numbered next).1.marks = d.marks
  | next, ⟨_, _, body⟩ => by
      simp [FunctionDecl.numbered, FunctionDecl.marks, Stmt.marksAll_numbered _ body]

theorem FunctionDecl.marksAll_numbered :
    ∀ (next : NodeId) (ds : List (FunctionDecl Label)),
      FunctionDecl.marksAll (FunctionDecl.numberedList next ds).1 = FunctionDecl.marksAll ds
  | _, [] => rfl
  | next, d :: ds => by
      simp [FunctionDecl.numberedList, FunctionDecl.marksAll, FunctionDecl.marks_numbered _ d,
        FunctionDecl.marksAll_numbered _ ds]

end

end Lox
