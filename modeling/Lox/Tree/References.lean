import Lox.Tree

namespace Lox

variable {Label : Type}

/-- A node that refers to a name, by its label and the token that names it. -/
structure Reference (Label : Type) where
  label : Label
  name : Token

mutual

/-- The references of an expression in the order of its text. -/
def Expr.references : Expr Label → List (Reference Label)
  | .literal _ => []
  | .grouping inner => inner.references
  | .unary _ operand => operand.references
  | .binary left _ right => left.references ++ right.references
  | .logical left _ right => left.references ++ right.references
  | .var label name => [⟨label, name⟩]
  | .assign label name value => ⟨label, name⟩ :: value.references
  | .call callee _ arguments => callee.references ++ Expr.referencesAll arguments
  | .get object _ => object.references
  | .set object _ value => object.references ++ value.references
  | .this label keyword => [⟨label, keyword⟩]

def Expr.referencesAll : List (Expr Label) → List (Reference Label)
  | [] => []
  | e :: es => e.references ++ Expr.referencesAll es

end

def Expr.referencesOption : Option (Expr Label) → List (Reference Label)
  | none => []
  | some e => e.references

mutual

/-- The references of a statement in the order of its text. -/
def Stmt.references : Stmt Label → List (Reference Label)
  | .expression e => e.references
  | .print e => e.references
  | .var _ initial => Expr.referencesOption initial
  | .block body => Stmt.referencesAll body
  | .branch condition consequent none => condition.references ++ consequent.references
  | .branch condition consequent (some alternative) =>
      condition.references ++ consequent.references ++ alternative.references
  | .loop condition body => condition.references ++ body.references
  | .function declaration => declaration.references
  | .ret _ value => Expr.referencesOption value
  | .class_ _ methods => FunctionDecl.referencesAll methods

def Stmt.referencesAll : List (Stmt Label) → List (Reference Label)
  | [] => []
  | s :: ss => s.references ++ Stmt.referencesAll ss

def FunctionDecl.references : FunctionDecl Label → List (Reference Label)
  | ⟨_, _, body⟩ => Stmt.referencesAll body

def FunctionDecl.referencesAll : List (FunctionDecl Label) → List (Reference Label)
  | [] => []
  | m :: ms => m.references ++ FunctionDecl.referencesAll ms

end

/-- The statements directly inside a statement; those of a class are the bodies of its methods. -/
def Stmt.children : Stmt Label → List (Stmt Label)
  | .block body => body
  | .branch _ consequent alternative => consequent :: alternative.toList
  | .loop _ body => [body]
  | .function declaration => declaration.body
  | .class_ _ methods => methods.flatMap FunctionDecl.body
  | _ => []

/-- The statement that a path of positions leads to. -/
def Stmt.at? (program : List (Stmt Label)) : List Nat → Option (Stmt Label)
  | [] => none
  | [position] => program[position]?
  | position :: path => program[position]?.bind fun s => Stmt.at? s.children path

end Lox
