import Lox.Parsing.Expression

/-!
The grammar of statements.

    declaration → 'class' IDENTIFIER '{' function* '}' | 'fun' function | variable | statement
    function    → IDENTIFIER '(' (IDENTIFIER (',' IDENTIFIER)*)? ')' block
    variable    → 'var' IDENTIFIER ('=' expression)? ';'
    statement   → 'for' '(' (variable | expression ';' | ';') expression? ';' expression? ')'
                  statement
                | 'if' '(' expression ')' statement ('else' statement)?
                | 'print' expression ';' | 'return' expression? ';'
                | 'while' '(' expression ')' statement | block | expression ';'
    block       → '{' declaration* '}'
-/

namespace Lox.Parsing

variable (R : Bool → List Token → Type → Type) {Label : Type} {Declared : List Token → Type}
  [Rules R Label Declared]

open Rules

/-- An expression, unless the symbol that ends its place comes first. -/
def optionalExpression (stop : Token) (ending : Symbol) (tokens : List Token) :
    R false tokens (Option (Expr Label)) :=
  match tokens with
  | [] => relax (map some (expression R stop []))
  | t :: rest =>
      if t.kind = .symbol ending then accept none
      else relax (map some (expression R stop (t :: rest)))

def expressionStatement (stop : Token) (tokens : List Token) : R true tokens (Stmt Label) :=
  andThen (expression R stop tokens) fun e rest _ =>
    map (fun _ => .expression e) (takeSymbol R stop .semicolon .afterExpression rest)

def printStatement (stop : Token) (tokens : List Token) : R true tokens (Stmt Label) :=
  andThen (expression R stop tokens) fun e rest _ =>
    map (fun _ => .print e) (takeSymbol R stop .semicolon .afterValue rest)

def returnStatement (stop keyword : Token) (tokens : List Token) : R true tokens (Stmt Label) :=
  andThen (optionalExpression R stop .semicolon tokens) fun value rest _ =>
    map (fun _ => .ret keyword value) (takeSymbol R stop .semicolon .afterReturnValue rest)

/-- The value that a variable starts with, if one is given. -/
def initialValue (stop : Token) (tokens : List Token) : R false tokens (Option (Expr Label)) :=
  match tokens with
  | [] => accept none
  | t :: rest =>
      if t.kind = .symbol .equal then afterToken t (map some (expression R stop rest))
      else accept none

def variableDeclaration (stop : Token) (tokens : List Token) : R true tokens (Stmt Label) :=
  andThen (takeName R stop .variable_ tokens) fun name rest _ =>
    andThen (initialValue R stop rest) fun initial rest _ =>
      map (fun _ => .var name initial) (takeSymbol R stop .semicolon .afterVariable rest)

/-- One or more names between commas, after `seen` others. -/
def parameterNames (stop : Token) (seen : Nat) (tokens : List Token) :
    R true tokens (List Token) :=
  reporting (excess stop .tooManyParameters seen tokens)
    (andThen (takeName R stop .parameter tokens) fun name rest h =>
      match rest, h with
      | [], _ => accept [name]
      | comma :: after, _ =>
          if comma.kind = .symbol .comma then
            afterToken comma (map (name :: ·) (parameterNames stop (seen + 1) after))
          else accept [name])
termination_by tokens.length
decreasing_by
  simp only [List.length_cons, Bool.toNat_true] at *
  omega

/-- The parameters up to a closing parenthesis. -/
def parameters (stop : Token) (tokens : List Token) : R false tokens (List Token) :=
  match tokens with
  | [] => relax (parameterNames R stop 0 [])
  | t :: rest =>
      if t.kind = .symbol .rightParen then accept []
      else relax (parameterNames R stop 0 (t :: rest))

/-- The statement before the first semicolon of a `for`. -/
def forInitial (stop : Token) (tokens : List Token) :
    R true tokens (Option (Stmt Label)) :=
  match tokens with
  | [] => map some (expressionStatement R stop [])
  | t :: rest =>
      if t.kind = .symbol .semicolon then afterToken t (accept none)
      else if t.kind = .keyword .var_ then afterToken t (map some (variableDeclaration R stop rest))
      else map some (expressionStatement R stop (t :: rest))

/-- What a loop does again and again: its body, and then the increment. -/
@[simp] def repeated (body : Stmt Label) : Option (Expr Label) → Stmt Label
  | none => body
  | some e => .block [body, .expression e]

/-- A `for` is a `while` whose body ends with the increment, in a block that begins with the
initial statement. Without a condition the loop goes on for ever. -/
def forLoop (initial : Option (Stmt Label)) (condition increment : Option (Expr Label))
    (body : Stmt Label) : Stmt Label :=
  let loop := .loop (condition.getD (.literal (.boolean true))) (repeated body increment)
  match initial with
  | none => loop
  | some s => .block [s, loop]

mutual

/-- A declaration whose first token is `t`. -/
def declaration (stop t : Token) (tokens : List Token) : Declared (t :: tokens) :=
  recover
    (if t.kind = .keyword .class_ then afterToken t (classDeclaration stop tokens)
    else if t.kind = .keyword .fun_ then
      afterToken t (map .function (function stop .function tokens))
    else if t.kind = .keyword .var_ then afterToken t (variableDeclaration R stop tokens)
    else statement stop (t :: tokens))
termination_by 8 * tokens.length + 12

def statement (stop : Token) (tokens : List Token) : R true tokens (Stmt Label) :=
  match tokens with
  | [] => expressionStatement R stop []
  | t :: rest =>
      if t.kind = .keyword .for_ then afterToken t (forStatement stop rest)
      else if t.kind = .keyword .if_ then afterToken t (ifStatement stop rest)
      else if t.kind = .keyword .print_ then afterToken t (printStatement R stop rest)
      else if t.kind = .keyword .return_ then afterToken t (returnStatement R stop t rest)
      else if t.kind = .keyword .while_ then afterToken t (whileStatement stop rest)
      else if t.kind = .symbol .leftBrace then
        afterToken t (map .block (block stop rest))
      else expressionStatement R stop (t :: rest)
termination_by 8 * tokens.length + 3

/-- The declarations up to a closing brace, and that brace. -/
def block (stop : Token) (tokens : List Token) : R true tokens (List (Stmt Label)) :=
  match tokens with
  | [] => refuse (.syntactic stop (.missing .rightBrace .afterBlock))
  | t :: rest =>
      if t.kind = .symbol .rightBrace then afterToken t (accept [])
      else
        afterDeclaration (declaration stop t rest) fun statement after _ =>
          map (statement.toList ++ ·) (block stop after)
termination_by 8 * tokens.length + 5
decreasing_by
  all_goals
    simp only [List.length_cons] at *
    omega

def classDeclaration (stop : Token) (tokens : List Token) : R true tokens (Stmt Label) :=
  andThen (takeName R stop .class_ tokens) fun name rest _ =>
    andThen (takeSymbol R stop .leftBrace .beforeClassBody rest) fun _ rest _ =>
      map (.class_ name) (methods stop rest)
termination_by 8 * tokens.length + 2
decreasing_by
  simp only [Bool.toNat_true] at *
  omega

/-- The methods up to a closing brace, and that brace. -/
def methods (stop : Token) (tokens : List Token) :
    R true tokens (List (FunctionDecl Label)) :=
  match tokens with
  | [] => refuse (.syntactic stop (.missing .rightBrace .afterClassBody))
  | t :: rest =>
      if t.kind = .symbol .rightBrace then afterToken t (accept [])
      else
        andThen (function stop .method (t :: rest)) fun method rest _ =>
          map (method :: ·) (methods stop rest)
termination_by 8 * tokens.length + 2
decreasing_by
  all_goals
    simp only [List.length_cons, Bool.toNat_true] at *
    omega

/-- The declaration of a function or method after the word that introduces it. -/
def function (stop : Token) (callable : Callable) (tokens : List Token) :
    R true tokens (FunctionDecl Label) :=
  andThen (takeName R stop (.callable callable) tokens) fun name rest _ =>
    andThen (takeSymbol R stop .leftParen (.afterCallableName callable) rest) fun _ rest _ =>
      andThen (parameters R stop rest) fun params rest _ =>
        andThen (takeSymbol R stop .rightParen .afterParameters rest) fun _ rest _ =>
          andThen (takeSymbol R stop .leftBrace (.beforeCallableBody callable) rest) fun _ rest _ =>
            map (fun body => ⟨name, params, body⟩) (block stop rest)
termination_by 8 * tokens.length + 1
decreasing_by
  simp only [Bool.toNat_true] at *
  omega

def forStatement (stop : Token) (tokens : List Token) : R true tokens (Stmt Label) :=
  andThen (takeSymbol R stop .leftParen (.afterWord .for_) tokens) fun _ rest _ =>
    andThen (forInitial R stop rest) fun initial rest _ =>
      andThen (optionalExpression R stop .semicolon rest) fun condition rest _ =>
        andThen (takeSymbol R stop .semicolon .afterLoopCondition rest) fun _ rest _ =>
          andThen (optionalExpression R stop .rightParen rest) fun increment rest _ =>
            andThen (takeSymbol R stop .rightParen .afterForClauses rest) fun _ rest _ =>
              map (forLoop initial condition increment) (statement stop rest)
termination_by 8 * tokens.length + 2
decreasing_by
  simp only [Bool.toNat_true] at *
  omega

def ifStatement (stop : Token) (tokens : List Token) : R true tokens (Stmt Label) :=
  andThen (takeSymbol R stop .leftParen (.afterWord .if_) tokens) fun _ rest _ =>
    andThen (expression R stop rest) fun condition rest _ =>
      andThen (takeSymbol R stop .rightParen .afterIfCondition rest) fun _ rest _ =>
        andThen (statement stop rest) fun consequent rest _ =>
          map (.branch condition consequent) (alternative stop rest)
termination_by 8 * tokens.length + 2
decreasing_by
  all_goals
    simp only [Bool.toNat_true] at *
    omega

/-- The branch after `else`, if there is one. -/
def alternative (stop : Token) (tokens : List Token) :
    R false tokens (Option (Stmt Label)) :=
  match tokens with
  | [] => accept none
  | t :: rest =>
      if t.kind = .keyword .else_ then afterToken t (map some (statement stop rest))
      else accept none
termination_by 8 * tokens.length + 2

def whileStatement (stop : Token) (tokens : List Token) : R true tokens (Stmt Label) :=
  andThen (takeSymbol R stop .leftParen (.afterWord .while_) tokens) fun _ rest _ =>
    andThen (expression R stop rest) fun condition rest _ =>
      andThen (takeSymbol R stop .rightParen .afterCondition rest) fun _ rest _ =>
        map (.loop condition) (statement stop rest)
termination_by 8 * tokens.length + 2
decreasing_by
  simp only [Bool.toNat_true] at *
  omega

end

end Lox.Parsing
