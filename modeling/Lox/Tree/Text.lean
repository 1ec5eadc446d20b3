import Lox.Number.Text
import Lox.Tree

namespace Lox

def Literal.text : Literal → String
  | nil => "nil"
  | boolean b => if b then "true" else "false"
  | number n => Number.text n
  | string s => s

variable {Label : Type}

mutual

def Expr.text : Expr Label → String
  | .literal value => value.text
  | .grouping inner => "(group " ++ inner.text ++ ")"
  | .unary operator operand => "(" ++ operator.lexeme ++ " " ++ operand.text ++ ")"
  | .binary left operator right =>
      "(" ++ operator.lexeme ++ " " ++ left.text ++ " " ++ right.text ++ ")"
  | .logical left operator right =>
      "(" ++ operator.lexeme ++ " " ++ left.text ++ " " ++ right.text ++ ")"
  | .var _ name => name.lexeme
  | .assign _ name value => "(= " ++ name.lexeme ++ " " ++ value.text ++ ")"
  | .call callee _ arguments => "(call " ++ callee.text ++ Expr.followingText arguments ++ ")"
  | .get object name => "(. " ++ object.text ++ " " ++ name.lexeme ++ ")"
  | .set object name value =>
      "(= (. " ++ object.text ++ " " ++ name.lexeme ++ ") " ++ value.text ++ ")"
  | .this _ _ => "this"

/-- The texts of several expressions, each after a space. -/
def Expr.followingText : List (Expr Label) → String
  | [] => ""
  | e :: es => " " ++ e.text ++ Expr.followingText es

end

/-- The parameters of a function, with spaces between them. -/
def paramsText (params : List Token) : String :=
  "(" ++ " ".intercalate (params.map Token.lexeme) ++ ")"

mutual

def Stmt.text : Stmt Label → String
  | .expression e => "(; " ++ e.text ++ ")"
  | .print e => "(print " ++ e.text ++ ")"
  | .var name none => "(var " ++ name.lexeme ++ ")"
  | .var name (some initial) => "(var " ++ name.lexeme ++ " = " ++ initial.text ++ ")"
  | .block body => "(block" ++ Stmt.followingText body ++ ")"
  | .branch condition consequent none => "(if " ++ condition.text ++ " " ++ consequent.text ++ ")"
  | .branch condition consequent (some alternative) =>
      "(if " ++ condition.text ++ " " ++ consequent.text ++ " " ++ alternative.text ++ ")"
  | .loop condition body => "(while " ++ condition.text ++ " " ++ body.text ++ ")"
  | .function declaration => declaration.text "fun"
  | .ret _ none => "(return)"
  | .ret _ (some value) => "(return " ++ value.text ++ ")"
  | .class_ name methods => "(class " ++ name.lexeme ++ FunctionDecl.followingText methods ++ ")"

/-- The texts of several statements, each after a space. -/
def Stmt.followingText : List (Stmt Label) → String
  | [] => ""
  | s :: ss => " " ++ s.text ++ Stmt.followingText ss

/-- The text of a function or method, introduced by `word`. -/
def FunctionDecl.text (word : String) : FunctionDecl Label → String
  | ⟨name, params, body⟩ =>
      "(" ++ word ++ " " ++ name.lexeme ++ paramsText params ++ Stmt.followingText body ++ ")"

/-- The texts of several methods, each after a space. -/
def FunctionDecl.followingText : List (FunctionDecl Label) → String
  | [] => ""
  | m :: ms => " " ++ m.text "method" ++ FunctionDecl.followingText ms

end

end Lox
