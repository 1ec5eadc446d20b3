import Lox.Token

/-!
The tree of a program.

An expression that refers to a variable, or to the receiver of a method, carries a label. A tree
as it is read has the empty label `Unit` there; `Lox.Tree.Numbering` gives each such node an
identity of its own, by which the resolution of names and the evaluation speak of it.
-/

namespace Lox

inductive Literal
  | nil
  | boolean (b : Bool)
  | number (n : Float)
  | string (s : String)
  deriving DecidableEq

inductive Expr (Label : Type)
  | literal (value : Literal)
  | grouping (inner : Expr Label)
  | unary (operator : Token) (operand : Expr Label)
  | binary (left : Expr Label) (operator : Token) (right : Expr Label)
  | logical (left : Expr Label) (operator : Token) (right : Expr Label)
  | var (label : Label) (name : Token)
  | assign (label : Label) (name : Token) (value : Expr Label)
  | call (callee : Expr Label) (paren : Token) (arguments : List (Expr Label))
  | get (object : Expr Label) (name : Token)
  | set (object : Expr Label) (name : Token) (value : Expr Label)
  | this (label : Label) (keyword : Token)

mutual

inductive Stmt (Label : Type)
  | expression (e : Expr Label)
  | print (e : Expr Label)
  | var (name : Token) (initial : Option (Expr Label))
  | block (body : List (Stmt Label))
  | branch (condition : Expr Label) (consequent : Stmt Label) (alternative : Option (Stmt Label))
  | loop (condition : Expr Label) (body : Stmt Label)
  | function (declaration : FunctionDecl Label)
  | ret (keyword : Token) (value : Option (Expr Label))
  | class_ (name : Token) (methods : List (FunctionDecl Label))

/-- A function or a method, without the word that introduces it. -/
structure FunctionDecl (Label : Type) where
  name : Token
  params : List Token
  body : List (Stmt Label)

end

/-- The identity of a node that refers to a name. -/
abbrev NodeId := Nat

end Lox
