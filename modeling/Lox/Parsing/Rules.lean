import Lox.Parsing.Recovery

/-!
What the rules of the grammar are made of.

The grammar is written once for all ways to read. They differ in how the nodes that refer to names
are built, and agree in all else.
-/

namespace Lox.Parsing

/-- A way to read. A rule on `tokens` that answers a value of type `α` is an `R takes tokens α`; if
`takes`, accepting takes a token. The nodes that refer to names are labelled, and what comes of a
declaration that begins with the first of `tokens` is a `Declared tokens`. -/
class Rules (R : Bool → List Token → Type → Type) (Label : outParam Type)
    (Declared : outParam (List Token → Type)) where
  /-- Accepts without taking a token. -/
  accept {tokens : List Token} {α : Type} (value : α) : R false tokens α
  refuse {takes : Bool} {tokens : List Token} {α : Type} (fault : Diagnostic) : R takes tokens α
  /-- Builds a node that refers to a name. -/
  build {tokens : List Token} {α : Type} (name : Token) (node : Label → α) : R false tokens α
  /-- One rule after another. The second one is given what the first one left. -/
  andThen {takes takes' : Bool} {tokens : List Token} {α β : Type} (first : R takes tokens α)
    (next : α → (rest : List Token) → rest.length + takes.toNat ≤ tokens.length →
      R takes' rest β) : R (takes || takes') tokens β
  map {takes : Bool} {tokens : List Token} {α β : Type} (f : α → β) (r : R takes tokens α) :
    R takes tokens β
  /-- The rule on `t :: tokens` that takes `t` and leaves the rest to `r`. -/
  afterToken {takes takes' : Bool} {tokens : List Token} {α : Type} (t : Token)
    (r : R takes tokens α) : R takes' (t :: tokens) α
  reporting {takes : Bool} {tokens : List Token} {α : Type} (earlier : List Diagnostic)
    (r : R takes tokens α) : R takes tokens α
  /-- A rule that need not take a token. -/
  relax {takes : Bool} {tokens : List Token} {α : Type} (r : R takes tokens α) : R false tokens α
  /-- A declaration that is read by `r`, or is dropped with its fault. -/
  recover {t : Token} {rest : List Token} (r : R true (t :: rest) (Stmt Label)) :
    Declared (t :: rest)
  /-- A rule after a declaration, of which it is given what came. -/
  afterDeclaration {takes : Bool} {tokens : List Token} {α : Type} (declaration : Declared tokens)
    (next : Option (Stmt Label) → (rest : List Token) → rest.length < tokens.length →
      R takes rest α) : R takes tokens α

/-- The reader whose nodes are not told apart. -/
instance : Rules Reply Unit (Recovery Unit) where
  accept := .pure
  refuse := .refuse
  build _ node := .pure (node ())
  andThen := .andThen
  map := .map
  afterToken := .afterToken
  reporting := .reporting
  relax := .relax
  recover := Reply.recover
  afterDeclaration := Reply.afterDeclaration

variable (R : Bool → List Token → Type → Type) {Label : Type} {Declared : List Token → Type}
  [Rules R Label Declared]

open Rules

/-- Takes a token of the given kind. -/
def take (stop : Token) (kind : Kind) (fault : SyntaxFault) :
    (tokens : List Token) → R true tokens Token
  | [] => refuse (.syntactic stop fault)
  | t :: _ => if t.kind = kind then afterToken t (accept t) else refuse (.syntactic t fault)

/-- Takes the symbol `s`, which has to stand at `place`. -/
def takeSymbol (stop : Token) (s : Symbol) (place : Place) (tokens : List Token) :
    R true tokens Token :=
  take R stop (.symbol s) (.missing s place) tokens

/-- Takes the name of what is `named`. -/
def takeName (stop : Token) (named : Named) (tokens : List Token) :
    R true tokens Token :=
  take R stop .identifier (.missingName named) tokens

end Lox.Parsing
