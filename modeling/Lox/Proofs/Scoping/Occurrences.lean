import Lox.Proofs.Scoping.Sites
import Lox.Tree.References
import Mathlib.Data.List.Basic
import Mathlib.Order.Bounds.Defs

/-!
What occurs in a program, and what surrounds it.

The occurrences of a program are its references, its declarations and its returns, in the order in
which they are visited. Around each of them are the frames of the text, each with the declarations
that stand before it there. `Occurrence.HasDistance` and `Occurrence.violation?` are the rules of
scopes in terms of that alone.
-/

namespace Lox

open Resolution

/-- A declaration that stands before some place in the same frame. -/
structure Declaration where
  name : String
  /-- It is a variable, and the place is in its initial value. -/
  unfinished : Bool
  deriving DecidableEq

/-- What surrounds a place in a program. -/
structure Surroundings where
  /-- The declarations before it in each frame around it. The innermost frame and the latest
  declaration come first. -/
  frames : List (List Declaration)
  /-- The names declared before it outside all frames. -/
  globals : List String
  /-- What the innermost function around it is. -/
  role : Option Role
  /-- A class body is around it. -/
  inClass : Bool

namespace Surroundings

def outermost : Surroundings := ⟨[], [], none, false⟩

/-- What surrounds a place after a declaration. -/
def declare (S : Surroundings) (name : Token) (unfinished : Bool) : Surroundings :=
  match S.frames with
  | [] => { S with globals := name.lexeme :: S.globals }
  | frame :: outer => { S with frames := (⟨name.lexeme, unfinished⟩ :: frame) :: outer }

def declareAll (S : Surroundings) (names : List Token) : Surroundings :=
  names.foldl (fun S name => S.declare name false) S

def inBlock (S : Surroundings) : Surroundings := { S with frames := [] :: S.frames }

def inFunction (S : Surroundings) (role : Role) : Surroundings :=
  { S with frames := [] :: S.frames, role := some role }

/-- The frame of a class body holds the receiver. -/
def inClassBody (S : Surroundings) : Surroundings :=
  { S with frames := [⟨thisName, false⟩] :: S.frames, inClass := true }

/-- The local variable whose initial value the place is in. -/
def initializing? (S : Surroundings) : Option String :=
  match S.frames with
  | (⟨name, true⟩ :: _) :: _ => some name
  | _ => none

end Surroundings

/-- The latest declaration of a name in a frame. -/
def latest? (name : String) (frame : List Declaration) : Option Declaration :=
  frame.find? fun d => d.name = name

/-- The frame declares the name. To be read it must not be unfinished as yet. -/
def binds (name : String) (reading : Bool) (frame : List Declaration) : Bool :=
  (latest? name frame).any fun d => !(reading && d.unfinished)

/-- What occurs in a program and has to do with scopes. -/
inductive Mention
  | reference (node : NodeId) (name : Token) (use : Use)
  | declaration (name : Token)
  | ret (keyword : Token) (hasValue : Bool)

structure Occurrence where
  mention : Mention
  around : Surroundings

mutual

def Expr.occurrences (S : Surroundings) : Expr NodeId → List Occurrence
  | .literal _ => []
  | .grouping inner => inner.occurrences S
  | .unary _ operand => operand.occurrences S
  | .binary left _ right => left.occurrences S ++ right.occurrences S
  | .logical left _ right => left.occurrences S ++ right.occurrences S
  | .var node name => [⟨.reference node name .read, S⟩]
  | .assign node name value => value.occurrences S ++ [⟨.reference node name .write, S⟩]
  | .call callee _ arguments => callee.occurrences S ++ Expr.occurrencesAll S arguments
  | .get object _ => object.occurrences S
  | .set object _ value => value.occurrences S ++ object.occurrences S
  | .this node keyword => [⟨.reference node keyword .receiver, S⟩]

def Expr.occurrencesAll (S : Surroundings) : List (Expr NodeId) → List Occurrence
  | [] => []
  | e :: es => e.occurrences S ++ Expr.occurrencesAll S es

end

def Expr.occurrencesOption (S : Surroundings) : Option (Expr NodeId) → List Occurrence
  | none => []
  | some e => e.occurrences S

/-- Parameters are declared one after another. -/
def parameterOccurrences (S : Surroundings) : List Token → List Occurrence
  | [] => []
  | param :: params =>
      ⟨.declaration param, S⟩ :: parameterOccurrences (S.declare param false) params

/-- The names that a statement declares in the frame that it stands in. -/
def Stmt.declared {Label : Type} : Stmt Label → List Token
  | .var name _ | .class_ name _ => [name]
  | .function declaration => [declaration.name]
  | .branch _ consequent none => consequent.declared
  | .branch _ consequent (some alternative) => consequent.declared ++ alternative.declared
  | .loop _ body => body.declared
  | _ => []

mutual

def Stmt.occurrences (S : Surroundings) : Stmt NodeId → List Occurrence
  | .expression e => e.occurrences S
  | .print e => e.occurrences S
  | .var name initial =>
      ⟨.declaration name, S⟩ :: Expr.occurrencesOption (S.declare name true) initial
  | .block body => Stmt.occurrencesAll S.inBlock body
  | .branch condition consequent none => condition.occurrences S ++ consequent.occurrences S
  | .branch condition consequent (some alternative) =>
      condition.occurrences S ++ consequent.occurrences S ++
        alternative.occurrences (S.declareAll consequent.declared)
  | .loop condition body => condition.occurrences S ++ body.occurrences S
  | .function declaration =>
      ⟨.declaration declaration.name, S⟩ ::
        declaration.occurrences .function (S.declare declaration.name false)
  | .ret keyword value => ⟨.ret keyword value.isSome, S⟩ :: Expr.occurrencesOption S value
  | .class_ name methods =>
      ⟨.declaration name, S⟩ ::
        FunctionDecl.occurrencesAll (S.declare name false).inClassBody methods

def Stmt.occurrencesAll (S : Surroundings) : List (Stmt NodeId) → List Occurrence
  | [] => []
  | s :: ss => s.occurrences S ++ Stmt.occurrencesAll (S.declareAll s.declared) ss

/-- The parameters and the body of a function share one frame. -/
def FunctionDecl.occurrences (role : Role) (S : Surroundings) :
    FunctionDecl NodeId → List Occurrence
  | ⟨_, params, body⟩ =>
      parameterOccurrences (S.inFunction role) params ++
        Stmt.occurrencesAll ((S.inFunction role).declareAll params) body

def FunctionDecl.occurrencesAll (S : Surroundings) : List (FunctionDecl NodeId) → List Occurrence
  | [] => []
  | m :: ms => m.occurrences (methodRole m.name) S ++ FunctionDecl.occurrencesAll S ms

end

/-- The reference is `distance` frames away from the nearest frame that binds its name. A receiver
is one inside a class body only. -/
def Occurrence.HasDistance (o : Occurrence) (node : NodeId) (distance : Nat) : Prop :=
  ∃ name use, o.mention = .reference node name use ∧ (use = .receiver → o.around.inClass) ∧
    IsLeast {d | ∃ frame, o.around.frames[d]? = some frame ∧ binds name.lexeme (use ≠ .write) frame}
      distance

/-- A variable is read, for which a `this` counts that is spelled otherwise. -/
def Use.readsVariable (use : Use) (name : String) : Bool :=
  use = .read || (use = .receiver && name ≠ thisName)

/-- The fault of an occurrence against the rules of scopes, where the names in `known` are known
from before. -/
def Occurrence.violation? (known : List String) (o : Occurrence) : Option Diagnostic :=
  match o.mention with
  | .ret keyword hasValue =>
      if o.around.role = none then some (.resolution keyword .returnOutsideFunction)
      else if o.around.role = some .initializer ∧ hasValue then
        some (.resolution keyword .valueFromInitializer)
      else none
  | .declaration name =>
      if ∃ frame ∈ o.around.frames.head?, ∃ d ∈ frame, d.name = name.lexeme then
        some (.resolution name .alreadyDeclared)
      else none
  | .reference _ name use =>
      if use = .receiver ∧ ¬o.around.inClass then some (.resolution name .thisOutsideClass)
      else if use.readsVariable name.lexeme ∧ o.around.initializing? = some name.lexeme ∧
          (∀ frame ∈ o.around.frames, ¬binds name.lexeme true frame) ∧
          name.lexeme ∉ known ∧ name.lexeme ∉ o.around.globals then
        some (.resolution name .readInOwnInitializer)
      else none

/-- The reference that occurs, if it is one. -/
def Occurrence.reference? (o : Occurrence) : Option (Reference NodeId) :=
  match o.mention with
  | .reference node name _ => some ⟨node, name⟩
  | _ => none

/-- The references among occurrences. -/
def referencesIn (occurrences : List Occurrence) : List (Reference NodeId) :=
  occurrences.filterMap Occurrence.reference?

theorem referencesIn_append (before after : List Occurrence) :
    referencesIn (before ++ after) = referencesIn before ++ referencesIn after :=
  List.filterMap_append

theorem referencesIn_perm_append {before after : List Occurrence}
    {left right : List (Reference NodeId)} (hbefore : (referencesIn before).Perm left)
    (hafter : (referencesIn after).Perm right) :
    (referencesIn (before ++ after)).Perm (left ++ right) := by
  rw [referencesIn_append]
  exact hbefore.append hafter

theorem referencesIn_perm_swap {before after : List Occurrence}
    {left right : List (Reference NodeId)} (hbefore : (referencesIn before).Perm right)
    (hafter : (referencesIn after).Perm left) :
    (referencesIn (before ++ after)).Perm (left ++ right) :=
  (referencesIn_perm_append hbefore hafter).trans List.perm_append_comm

theorem referencesIn_parameters (S : Surroundings) (params : List Token) :
    referencesIn (parameterOccurrences S params) = [] := by
  induction params generalizing S with
  | nil => rfl
  | cons param params ih => exact ih (S.declare param false)

mutual

theorem Expr.referencesIn_occurrences (S : Surroundings) :
    ∀ e : Expr NodeId, (referencesIn (e.occurrences S)).Perm e.references
  | .literal _ => .refl _
  | .grouping inner => Expr.referencesIn_occurrences S inner
  | .unary _ operand => Expr.referencesIn_occurrences S operand
  | .binary left _ right | .logical left _ right =>
      referencesIn_perm_append (Expr.referencesIn_occurrences S left)
        (Expr.referencesIn_occurrences S right)
  | .var _ _ => .refl _
  | .assign node name value => by
      have hself : (referencesIn [⟨.reference node name .write, S⟩]).Perm [⟨node, name⟩] := .refl _
      exact referencesIn_perm_swap (Expr.referencesIn_occurrences S value) hself
  | .call callee _ arguments =>
      referencesIn_perm_append (Expr.referencesIn_occurrences S callee)
        (Expr.referencesIn_occurrencesAll S arguments)
  | .get object _ => Expr.referencesIn_occurrences S object
  | .set object _ value =>
      referencesIn_perm_swap (Expr.referencesIn_occurrences S value)
        (Expr.referencesIn_occurrences S object)
  | .this _ _ => .refl _

theorem Expr.referencesIn_occurrencesAll (S : Surroundings) :
    ∀ es : List (Expr NodeId),
      (referencesIn (Expr.occurrencesAll S es)).Perm (Expr.referencesAll es)
  | [] => .refl _
  | e :: es =>
      referencesIn_perm_append (Expr.referencesIn_occurrences S e)
        (Expr.referencesIn_occurrencesAll S es)

end

theorem Expr.referencesIn_occurrencesOption (S : Surroundings) (e : Option (Expr NodeId)) :
    (referencesIn (Expr.occurrencesOption S e)).Perm (Expr.referencesOption e) := by
  cases e with
  | none => exact .refl _
  | some e => exact Expr.referencesIn_occurrences S e

mutual

theorem Stmt.referencesIn_occurrences (S : Surroundings) :
    ∀ s : Stmt NodeId, (referencesIn (s.occurrences S)).Perm s.references
  | .expression e | .print e => Expr.referencesIn_occurrences S e
  | .var name initial => Expr.referencesIn_occurrencesOption (S.declare name true) initial
  | .block body => Stmt.referencesIn_occurrencesAll S.inBlock body
  | .branch condition consequent none =>
      referencesIn_perm_append (Expr.referencesIn_occurrences S condition)
        (Stmt.referencesIn_occurrences S consequent)
  | .branch condition consequent (some alternative) =>
      referencesIn_perm_append
        (referencesIn_perm_append (Expr.referencesIn_occurrences S condition)
          (Stmt.referencesIn_occurrences S consequent))
        (Stmt.referencesIn_occurrences (S.declareAll consequent.declared) alternative)
  | .loop condition body =>
      referencesIn_perm_append (Expr.referencesIn_occurrences S condition)
        (Stmt.referencesIn_occurrences S body)
  | .function declaration =>
      FunctionDecl.referencesIn_occurrences .function (S.declare declaration.name false) declaration
  | .ret _ value => Expr.referencesIn_occurrencesOption S value
  | .class_ name methods =>
      FunctionDecl.referencesIn_occurrencesAll (S.declare name false).inClassBody methods

theorem Stmt.referencesIn_occurrencesAll (S : Surroundings) :
    ∀ ss : List (Stmt NodeId),
      (referencesIn (Stmt.occurrencesAll S ss)).Perm (Stmt.referencesAll ss)
  | [] => .refl _
  | s :: ss =>
      referencesIn_perm_append (Stmt.referencesIn_occurrences S s)
        (Stmt.referencesIn_occurrencesAll (S.declareAll s.declared) ss)

theorem FunctionDecl.referencesIn_occurrences (role : Role) (S : Surroundings) :
    ∀ d : FunctionDecl NodeId, (referencesIn (d.occurrences role S)).Perm d.references
  | ⟨_, params, body⟩ => by
      rw [FunctionDecl.occurrences, referencesIn_append, referencesIn_parameters]
      exact Stmt.referencesIn_occurrencesAll ((S.inFunction role).declareAll params) body

theorem FunctionDecl.referencesIn_occurrencesAll (S : Surroundings) :
    ∀ ms : List (FunctionDecl NodeId),
      (referencesIn (FunctionDecl.occurrencesAll S ms)).Perm (FunctionDecl.referencesAll ms)
  | [] => .refl _
  | m :: ms =>
      referencesIn_perm_append (FunctionDecl.referencesIn_occurrences (methodRole m.name) S m)
        (FunctionDecl.referencesIn_occurrencesAll S ms)

end

end Lox
