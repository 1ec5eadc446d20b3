import Lox.Parsing.Rules

/-!
The grammar of expressions.

    expression → (call '.')? IDENTIFIER '=' expression | binary
    binary     → for each level of operators, from the loosest to the tightest,
                 operands of the next level with operators of this one between them
    unary      → ('!' | '-') unary | call
    call       → primary ('(' arguments? ')' | '.' IDENTIFIER)*
    primary    → NUMBER | STRING | IDENTIFIER | 'true' | 'false' | 'nil' | 'this'
               | '(' expression ')'

What stands before `=` is read as an operand first, and is then asked whether it is a name or a
property.
-/

namespace Lox.Parsing

/-- Operators of equal strength. All of them group to the left. -/
structure Level (Label : Type) where
  operators : List Kind
  join : Expr Label → Token → Expr Label → Expr Label

/-- The binary operators, loosest first. -/
def levels {Label : Type} : List (Level Label) :=
  [⟨[.keyword .or_], .logical⟩,
    ⟨[.keyword .and_], .logical⟩,
    ⟨[.symbol .bangEqual, .symbol .equalEqual], .binary⟩,
    ⟨[.symbol .greater, .symbol .greaterEqual, .symbol .less, .symbol .lessEqual], .binary⟩,
    ⟨[.symbol .minus, .symbol .plus], .binary⟩,
    ⟨[.symbol .star, .symbol .slash], .binary⟩]

theorem length_levels {Label : Type} : (levels : List (Level Label)).length = 6 := rfl

def unaryOperators : List Kind := [.symbol .bang, .symbol .minus]

/-- The literal that a token stands for. -/
def literal? : Kind → Option Literal
  | .keyword .false_ => some (.boolean false)
  | .keyword .true_ => some (.boolean true)
  | .keyword .nil_ => some .nil
  | .number n => some (.number n)
  | .string s => some (.string s)
  | _ => none

variable (R : Bool → List Token → Type → Type) {Label : Type} {Declared : List Token → Type}
  [Rules R Label Declared]

open Rules

/-- The assignment of `value` to `target`, which is a node of its own. Of a target that is neither a
name nor a property the fault is reported, and the target stands for the whole. -/
def assignment (equals : Token) (target value : Expr Label) (tokens : List Token) :
    R false tokens (Expr Label) :=
  match target with
  | .var _ name => build name fun node => .assign node name value
  | .get object name => accept (.set object name value)
  | other => reporting [.syntactic equals .invalidTarget] (accept other)

mutual

def expression (stop : Token) (tokens : List Token) : R true tokens (Expr Label) :=
  andThen (binary stop levels tokens) fun target rest h =>
    match rest, h with
    | [], _ => accept target
    | equals :: after, _ =>
        if equals.kind = .symbol .equal then
          afterToken equals (andThen (expression stop after) fun value rest _ =>
            assignment R equals target value rest)
        else accept target
termination_by 16 * tokens.length + 10
decreasing_by
  all_goals
    simp only [length_levels, List.length_cons, Bool.toNat_true] at *
    omega

/-- Operands joined by operators of `levels`, the first of which is the loosest. -/
def binary (stop : Token) (levels : List (Level Label)) (tokens : List Token) :
    R true tokens (Expr Label) :=
  match levels with
  | [] => unary stop tokens
  | level :: tighter =>
      andThen (binary stop tighter tokens) fun left rest _ =>
        binaryTail stop level tighter left rest
termination_by 16 * tokens.length + 3 + levels.length

/-- The operators of `level`, each with the operand after it, that follow `left`. -/
def binaryTail (stop : Token) (level : Level Label) (tighter : List (Level Label))
    (left : Expr Label) (tokens : List Token) : R false tokens (Expr Label) :=
  match tokens with
  | [] => accept left
  | operator :: after =>
      if operator.kind ∈ level.operators then
        afterToken operator (andThen (binary stop tighter after) fun right rest _ =>
          binaryTail stop level tighter (level.join left operator right) rest)
      else accept left
termination_by 16 * tokens.length + 3 + tighter.length

def unary (stop : Token) (tokens : List Token) : R true tokens (Expr Label) :=
  match tokens with
  | [] => call stop []
  | operator :: after =>
      if operator.kind ∈ unaryOperators then
        afterToken operator (map (.unary operator) (unary stop after))
      else call stop (operator :: after)
termination_by 16 * tokens.length + 2

def call (stop : Token) (tokens : List Token) : R true tokens (Expr Label) :=
  andThen (primary stop tokens) fun callee rest _ => callTail stop callee rest
termination_by 16 * tokens.length + 1

/-- The argument lists and property names that follow `callee`. -/
def callTail (stop : Token) (callee : Expr Label) (tokens : List Token) :
    R false tokens (Expr Label) :=
  match tokens with
  | [] => accept callee
  | t :: after =>
      if t.kind = .symbol .leftParen then
        afterToken t (andThen (arguments stop after) fun entries rest _ =>
          andThen (takeSymbol R stop .rightParen .afterArguments rest) fun paren rest _ =>
            callTail stop (.call callee paren entries) rest)
      else if t.kind = .symbol .dot then
        afterToken t (andThen (takeName R stop .property after) fun name rest _ =>
          callTail stop (.get callee name) rest)
      else accept callee
termination_by 16 * tokens.length

/-- The arguments up to a closing parenthesis. -/
def arguments (stop : Token) (tokens : List Token) : R false tokens (List (Expr Label)) :=
  match tokens with
  | [] => relax (entries stop 0 [])
  | t :: after =>
      if t.kind = .symbol .rightParen then accept [] else relax (entries stop 0 (t :: after))
termination_by 16 * tokens.length + 12

/-- One or more expressions between commas, after `seen` others. -/
def entries (stop : Token) (seen : Nat) (tokens : List Token) :
    R true tokens (List (Expr Label)) :=
  reporting (excess stop .tooManyArguments seen tokens)
    (andThen (expression stop tokens) fun entry rest h =>
      match rest, h with
      | [], _ => accept [entry]
      | comma :: after, h =>
          if comma.kind = .symbol .comma then
            afterToken comma (map (entry :: ·) (entries stop (seen + 1) after))
          else accept [entry])
termination_by 16 * tokens.length + 11
decreasing_by
  · omega
  · simp only [List.length_cons, Bool.toNat_true] at *
    omega

def primary (stop : Token) (tokens : List Token) : R true tokens (Expr Label) :=
  match tokens with
  | [] => refuse (.syntactic stop .missingExpression)
  | t :: after =>
      match literal? t.kind with
      | some value => afterToken t (accept (Expr.literal value))
      | none =>
          if t.kind = .identifier then afterToken t (build t fun node => .var node t)
          else if t.kind = .keyword .this_ then afterToken t (build t fun node => .this node t)
          else if t.kind = .symbol .leftParen then
            afterToken t (andThen (expression stop after) fun inner rest _ =>
              map (fun _ => .grouping inner) (takeSymbol R stop .rightParen .afterExpression rest))
          else refuse (.syntactic t .missingExpression)
termination_by 16 * tokens.length

end

end Lox.Parsing
