import Lox.Parsing.Statement
import Lox.Tree.References

/-!
Rules that give identities while they read.

A node that refers to a name gets its identity when it is built, from a counter that goes on
whatever becomes of the node. A rule hands the issuer of identities on, also where it refuses.
-/

namespace Lox.Issuing

open Parsing (Reply Recovery)

/-- The nodes that have been built so far, in order, with identities from `first` on. -/
structure Issuer (first : NodeId) where
  built : List (Reference NodeId)
  consecutive : built.map Reference.label = List.range' first built.length

namespace Issuer

variable {first : NodeId}

def new (first : NodeId) : Issuer first := ⟨[], rfl⟩

/-- The identity of the next node. -/
def next (issuer : Issuer first) : NodeId := first + issuer.built.length

/-- The issuer after one more node was built. -/
def issue (issuer : Issuer first) (name : Token) : Issuer first where
  built := issuer.built ++ [⟨issuer.next, name⟩]
  consecutive := by
    rw [List.map_append, issuer.consecutive, List.length_append, List.length_singleton,
      List.range'_concat, Nat.one_mul]
    rfl

end Issuer

/-- A rule on `tokens`; if `takes`, accepting takes a token. -/
def Rule (first : NodeId) (takes : Bool) (tokens : List Token) (α : Type) : Type :=
  Issuer first → Reply takes tokens α × Issuer first

namespace Rule

variable {α β : Type} {first : NodeId} {takes takes' : Bool} {tokens : List Token}

def pure (value : α) : Rule first false tokens α := fun issuer => (.pure value, issuer)

def refuse (fault : Diagnostic) : Rule first takes tokens α := fun issuer => (.refuse fault, issuer)

/-- Builds a node that refers to a name. -/
def build (name : Token) (node : NodeId → α) : Rule first false tokens α := fun issuer =>
  (.pure (node issuer.next), issuer.issue name)

/-- One rule after another. The second one is given what the first one left. -/
def andThen (r : Rule first takes tokens α)
    (next : α → (rest : List Token) → rest.length + takes.toNat ≤ tokens.length →
      Rule first takes' rest β) : Rule first (takes || takes') tokens β := fun issuer =>
  match r issuer with
  | (⟨.refused fault rest reports, h⟩, issuer) => (⟨.refused fault rest reports, h⟩, issuer)
  | (⟨.accepted value rest reports, h⟩, issuer) =>
      let (second, issuer) := next value rest h issuer
      (⟨second.val.reporting reports, (second.property.reporting reports).trans h⟩, issuer)

def map (f : α → β) (r : Rule first takes tokens α) : Rule first takes tokens β := fun issuer =>
  ((r issuer).1.map f, (r issuer).2)

/-- The rule on `t :: tokens` that takes `t` and leaves the rest to `r`. -/
def afterToken (t : Token) (r : Rule first takes tokens α) : Rule first takes' (t :: tokens) α :=
  fun issuer => ((r issuer).1.afterToken t, (r issuer).2)

def reporting (earlier : List Diagnostic) (r : Rule first takes tokens α) :
    Rule first takes tokens α := fun issuer => ((r issuer).1.reporting earlier, (r issuer).2)

/-- A rule that need not take a token. -/
def relax (r : Rule first takes tokens α) : Rule first false tokens α := fun issuer =>
  ((r issuer).1.relax, (r issuer).2)

/-- The rule on more tokens that sees only the last of them. -/
def within {all : List Token} (r : Rule first takes tokens α) (h : tokens.length ≤ all.length) :
    Rule first takes all α := fun issuer => ((r issuer).1.within h, (r issuer).2)

/-- The identities that the nodes of a dropped declaration have got stay with them. -/
def recover {t : Token} {rest : List Token} (r : Rule first true (t :: rest) (Stmt NodeId)) :
    Issuer first → Recovery NodeId (t :: rest) × Issuer first := fun issuer =>
  ((r issuer).1.recover, (r issuer).2)

def afterDeclaration (declaration : Issuer first → Recovery NodeId tokens × Issuer first)
    (next : Option (Stmt NodeId) → (rest : List Token) → rest.length < tokens.length →
      Rule first takes rest α) : Rule first takes tokens α := fun issuer =>
  let (came, issuer) := declaration issuer
  let rule := (next came.statement came.rest came.progress).reporting came.reports
  rule.within (Nat.le_of_lt came.progress) issuer

end Rule

/-- The reader whose nodes get identities from `first` on. -/
instance (first : NodeId) : Parsing.Rules (Rule first) NodeId
    fun tokens => Issuer first → Recovery NodeId tokens × Issuer first where
  accept := .pure
  refuse := .refuse
  build := .build
  andThen := .andThen
  map := .map
  afterToken := .afterToken
  reporting := .reporting
  relax := .relax
  recover := Rule.recover
  afterDeclaration := Rule.afterDeclaration

end Lox.Issuing
