import Lox.Parsing.Statement
import Lox.Proofs.Syntax.ExpressionReading

/-!
Which tokens stand for which statement.

A statement is closed if no `else` can follow it, which would belong to it. In front of an `else`
stand only closed statements, so each stretch of tokens stands for one statement at most.
-/

namespace Lox.Parsing

/-- What is read among statements. -/
inductive StmtPhrase
  | declaration (s : Stmt Unit)
  | statement (closed : Bool) (s : Stmt Unit)
  | declarations (ss : List (Stmt Unit))
  | function (d : FunctionDecl Unit)
  | methods (ds : List (FunctionDecl Unit))

/-- An expression, or nothing at all. -/
def ReadsAsOption (ts : List Token) : Option (Expr Unit) → Prop
  | none => ts = []
  | some e => ReadsAs ts (.expression e)

/-- The declaration of a variable after the word that introduces it. -/
inductive ReadsAsVariable : List Token → Stmt Unit → Prop
  | bare {name semicolon : Token} (hname : name.kind = .identifier)
      (hsemicolon : semicolon.kind = .symbol .semicolon) :
      ReadsAsVariable [name, semicolon] (.var name none)
  | initial {name equals semicolon : Token} {ts : List Token} {e : Expr Unit}
      (hname : name.kind = .identifier) (hequals : equals.kind = .symbol .equal)
      (he : ReadsAs ts (.expression e)) (hsemicolon : semicolon.kind = .symbol .semicolon) :
      ReadsAsVariable (name :: equals :: (ts ++ [semicolon])) (.var name (some e))

/-- One or more names between commas. -/
inductive ReadsAsNames : List Token → List Token → Prop
  | last {name : Token} (hname : name.kind = .identifier) : ReadsAsNames [name] [name]
  | more {name comma : Token} {ts names : List Token} (hname : name.kind = .identifier)
      (hcomma : comma.kind = .symbol .comma) (h : ReadsAsNames ts names) :
      ReadsAsNames (name :: comma :: ts) (name :: names)

inductive ReadsAsParameters : List Token → List Token → Prop
  | none : ReadsAsParameters [] []
  | some {ts names : List Token} (h : ReadsAsNames ts names) (hcount : names.length ≤ entryLimit) :
      ReadsAsParameters ts names

/-- What stands before the condition of a `for`. -/
inductive ReadsAsInitial : List Token → Option (Stmt Unit) → Prop
  | none {semicolon : Token} (h : semicolon.kind = .symbol .semicolon) :
      ReadsAsInitial [semicolon] none
  | var_ {word : Token} {ts : List Token} {s : Stmt Unit} (hword : word.kind = .keyword .var_)
      (h : ReadsAsVariable ts s) : ReadsAsInitial (word :: ts) (some s)
  | expression {semicolon : Token} {ts : List Token} {e : Expr Unit}
      (h : ReadsAs ts (.expression e)) (hsemicolon : semicolon.kind = .symbol .semicolon) :
      ReadsAsInitial (ts ++ [semicolon]) (some (.expression e))

inductive ReadsAsStmt : List Token → StmtPhrase → Prop
  | expression {semicolon : Token} {ts : List Token} {e : Expr Unit}
      (he : ReadsAs ts (.expression e)) (hsemicolon : semicolon.kind = .symbol .semicolon) :
      ReadsAsStmt (ts ++ [semicolon]) (.statement true (.expression e))
  | print {word semicolon : Token} {ts : List Token} {e : Expr Unit}
      (hword : word.kind = .keyword .print_) (he : ReadsAs ts (.expression e))
      (hsemicolon : semicolon.kind = .symbol .semicolon) :
      ReadsAsStmt (word :: (ts ++ [semicolon])) (.statement true (.print e))
  | ret {word semicolon : Token} {ts : List Token} {value : Option (Expr Unit)}
      (hword : word.kind = .keyword .return_) (hvalue : ReadsAsOption ts value)
      (hsemicolon : semicolon.kind = .symbol .semicolon) :
      ReadsAsStmt (word :: (ts ++ [semicolon])) (.statement true (.ret word value))
  | block {l r : Token} {ts : List Token} {ss : List (Stmt Unit)}
      (hl : l.kind = .symbol .leftBrace) (hbody : ReadsAsStmt ts (.declarations ss))
      (hr : r.kind = .symbol .rightBrace) :
      ReadsAsStmt (l :: (ts ++ [r])) (.statement true (.block ss))
  | branch {word l r : Token} {ts us : List Token} {condition : Expr Unit} {closed : Bool}
      {consequent : Stmt Unit} (hword : word.kind = .keyword .if_)
      (hl : l.kind = .symbol .leftParen) (hcondition : ReadsAs ts (.expression condition))
      (hr : r.kind = .symbol .rightParen)
      (hconsequent : ReadsAsStmt us (.statement closed consequent)) :
      ReadsAsStmt (word :: l :: (ts ++ r :: us))
        (.statement false (.branch condition consequent none))
  | branches {word l r other : Token} {ts us vs : List Token} {condition : Expr Unit}
      {closed : Bool} {consequent alternative : Stmt Unit} (hword : word.kind = .keyword .if_)
      (hl : l.kind = .symbol .leftParen) (hcondition : ReadsAs ts (.expression condition))
      (hr : r.kind = .symbol .rightParen)
      (hconsequent : ReadsAsStmt us (.statement true consequent))
      (hother : other.kind = .keyword .else_)
      (halternative : ReadsAsStmt vs (.statement closed alternative)) :
      ReadsAsStmt (word :: l :: (ts ++ r :: (us ++ other :: vs)))
        (.statement closed (.branch condition consequent (some alternative)))
  | loop {word l r : Token} {ts us : List Token} {condition : Expr Unit} {closed : Bool}
      {body : Stmt Unit} (hword : word.kind = .keyword .while_)
      (hl : l.kind = .symbol .leftParen) (hcondition : ReadsAs ts (.expression condition))
      (hr : r.kind = .symbol .rightParen) (hbody : ReadsAsStmt us (.statement closed body)) :
      ReadsAsStmt (word :: l :: (ts ++ r :: us)) (.statement closed (.loop condition body))
  | forLoop {word l semicolon r : Token} {is cs ns us : List Token} {initial : Option (Stmt Unit)}
      {condition increment : Option (Expr Unit)} {closed : Bool} {body : Stmt Unit}
      (hword : word.kind = .keyword .for_) (hl : l.kind = .symbol .leftParen)
      (hinitial : ReadsAsInitial is initial) (hcondition : ReadsAsOption cs condition)
      (hsemicolon : semicolon.kind = .symbol .semicolon)
      (hincrement : ReadsAsOption ns increment) (hr : r.kind = .symbol .rightParen)
      (hbody : ReadsAsStmt us (.statement closed body)) :
      ReadsAsStmt (word :: l :: (is ++ (cs ++ semicolon :: (ns ++ r :: us))))
        (.statement closed (forLoop initial condition increment body))
  | statement {ts : List Token} {closed : Bool} {s : Stmt Unit}
      (h : ReadsAsStmt ts (.statement closed s)) : ReadsAsStmt ts (.declaration s)
  | var_ {word : Token} {ts : List Token} {s : Stmt Unit} (hword : word.kind = .keyword .var_)
      (h : ReadsAsVariable ts s) : ReadsAsStmt (word :: ts) (.declaration s)
  | function {word : Token} {ts : List Token} {d : FunctionDecl Unit}
      (hword : word.kind = .keyword .fun_) (h : ReadsAsStmt ts (.function d)) :
      ReadsAsStmt (word :: ts) (.declaration (.function d))
  | class_ {word name l r : Token} {ts : List Token} {ds : List (FunctionDecl Unit)}
      (hword : word.kind = .keyword .class_) (hname : name.kind = .identifier)
      (hl : l.kind = .symbol .leftBrace) (hmethods : ReadsAsStmt ts (.methods ds))
      (hr : r.kind = .symbol .rightBrace) :
      ReadsAsStmt (word :: name :: l :: (ts ++ [r])) (.declaration (.class_ name ds))
  | noDeclarations : ReadsAsStmt [] (.declarations [])
  | declarations {ts us : List Token} {s : Stmt Unit} {ss : List (Stmt Unit)}
      (hs : ReadsAsStmt ts (.declaration s)) (hss : ReadsAsStmt us (.declarations ss)) :
      ReadsAsStmt (ts ++ us) (.declarations (s :: ss))
  | noMethods : ReadsAsStmt [] (.methods [])
  | methods {ts us : List Token} {d : FunctionDecl Unit} {ds : List (FunctionDecl Unit)}
      (hd : ReadsAsStmt ts (.function d)) (hds : ReadsAsStmt us (.methods ds)) :
      ReadsAsStmt (ts ++ us) (.methods (d :: ds))
  | body {name l r open_ close : Token} {ps ts : List Token} {params : List Token}
      {ss : List (Stmt Unit)} (hname : name.kind = .identifier)
      (hl : l.kind = .symbol .leftParen) (hparams : ReadsAsParameters ps params)
      (hr : r.kind = .symbol .rightParen) (hopen : open_.kind = .symbol .leftBrace)
      (hbody : ReadsAsStmt ts (.declarations ss)) (hclose : close.kind = .symbol .rightBrace) :
      ReadsAsStmt (name :: l :: (ps ++ r :: open_ :: (ts ++ [close])))
        (.function ⟨name, params, ss⟩)

/-- No `else` comes first. -/
def NoElse (tokens : List Token) : Prop := ∀ t ∈ tokens.head?, t.kind ≠ .keyword .else_

end Lox.Parsing
