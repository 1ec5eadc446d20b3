import Std.Data.TreeMap
import Lox.Bindings
import Lox.Diagnostic
import Lox.Tree

/-!
Which declaration each name means.

Blocks, function bodies and class bodies are the frames of a program. The walk through a tree keeps
the frames that are open at each node, with the names declared in them so far. A reference is
resolved to its distance in frames, counted from the innermost one; a reference that no frame binds
means a global and gets no entry.
-/

namespace Lox

/-- The distance of each resolved node. -/
abbrev Hops := Std.TreeMap NodeId Nat

/-- Both tables in one. -/
def Hops.merge (hops more : Hops) : Hops :=
  more.foldl (fun all node distance => all.insert node distance) hops

namespace Resolution

/-- What the body of a function is the body of. -/
inductive Role
  | function
  | method
  | initializer
  deriving DecidableEq, Repr

/-- The method with this name initializes the instances of its class. -/
def initializerName : String := "init"

def thisName : String := Keyword.this_.spelling

/-- What surrounds a node: the function it is in, if any, and whether a class body is open. -/
structure Context where
  role : Option Role
  inClass : Bool
  deriving DecidableEq, Repr

def Context.topLevel : Context := ⟨none, false⟩

/-- The names declared in a frame. A variable is not ready while its own initial value is
computed. -/
abbrev Frame := Bindings Bool

/-- The state of a walk. The innermost frame comes first. -/
structure Walk where
  frames : List Frame
  globals : List String
  hops : Hops
  reports : Array Diagnostic

/-- The outcome of looking for a name in the open frames. -/
inductive Finding
  /-- Bound this many frames out. -/
  | bound (distance : Nat)
  /-- Bound nowhere, or only by variables that are not ready. -/
  | nowhere (unready : Bool)
  deriving DecidableEq, Repr

/-- The nearest frame that binds `name`, counted from `distance`. A reading passes over variables
that are not ready, and an assignment does not. -/
def find (name : String) (reading : Bool) (distance : Nat) (unready : Bool) :
    List Frame → Finding
  | [] => .nowhere unready
  | frame :: outer =>
      match frame.find? name with
      | none => find name reading (distance + 1) unready outer
      | some ready =>
          if reading && !ready then find name reading (distance + 1) true outer
          else .bound distance

namespace Walk

def report (w : Walk) (place : Token) (fault : ResolutionFault) : Walk :=
  { w with reports := w.reports.push (.resolution place fault) }

/-- Introduces a name in the innermost frame, not ready yet, or as a global. -/
def declare (w : Walk) (name : Token) : Walk :=
  match w.frames with
  | [] => { w with globals := name.lexeme :: w.globals }
  | frame :: outer =>
      let declared := { w with frames := frame.insert name.lexeme false :: outer }
      if (frame.find? name.lexeme).isSome then declared.report name .alreadyDeclared else declared

/-- Makes a declared name ready. -/
def define (w : Walk) (name : Token) : Walk :=
  match w.frames with
  | [] => w
  | frame :: outer => { w with frames := frame.insert name.lexeme true :: outer }

/-- Resolves a node that names `name`. -/
def refer (w : Walk) (node : NodeId) (name : Token) (reading : Bool) : Walk :=
  match find name.lexeme reading 0 false w.frames with
  | .bound distance => { w with hops := w.hops.insert node distance }
  | .nowhere unready =>
      if unready && !w.globals.contains name.lexeme then w.report name .readInOwnInitializer
      else w

/-- A part of the walk inside a frame of its own. -/
def within (w : Walk) (frame : Frame) (inner : Walk → Walk) : Walk :=
  let w := inner { w with frames := frame :: w.frames }
  { w with frames := w.frames.tail }

end Walk

mutual

def resolveExpr (context : Context) : Expr NodeId → Walk → Walk
  | .literal _, w => w
  | .grouping inner, w => resolveExpr context inner w
  | .unary _ operand, w => resolveExpr context operand w
  | .binary left _ right, w => resolveExpr context right (resolveExpr context left w)
  | .logical left _ right, w => resolveExpr context right (resolveExpr context left w)
  | .var node name, w => w.refer node name true
  | .assign node name value, w => (resolveExpr context value w).refer node name false
  | .call callee _ arguments, w => resolveExprs context arguments (resolveExpr context callee w)
  | .get object _, w => resolveExpr context object w
  | .set object _ value, w => resolveExpr context object (resolveExpr context value w)
  | .this node keyword, w =>
      if context.inClass then w.refer node keyword true
      else w.report keyword .thisOutsideClass

def resolveExprs (context : Context) : List (Expr NodeId) → Walk → Walk
  | [], w => w
  | e :: es, w => resolveExprs context es (resolveExpr context e w)

end

def resolveOption (context : Context) : Option (Expr NodeId) → Walk → Walk
  | none, w => w
  | some e, w => resolveExpr context e w

/-- The faults of a `return` in its place. -/
def checkReturn (context : Context) (keyword : Token) (hasValue : Bool) (w : Walk) : Walk :=
  match context.role with
  | none => w.report keyword .returnOutsideFunction
  | some .initializer => if hasValue then w.report keyword .valueFromInitializer else w
  | some _ => w

def methodRole (name : Token) : Role :=
  if name.lexeme = initializerName then .initializer else .method

mutual

def resolveStmt (context : Context) : Stmt NodeId → Walk → Walk
  | .expression e, w => resolveExpr context e w
  | .print e, w => resolveExpr context e w
  | .var name initial, w => (resolveOption context initial (w.declare name)).define name
  | .block body, w => w.within .empty (resolveStmts context body)
  | .branch condition consequent none, w =>
      resolveStmt context consequent (resolveExpr context condition w)
  | .branch condition consequent (some alternative), w =>
      resolveStmt context alternative
        (resolveStmt context consequent (resolveExpr context condition w))
  | .loop condition body, w => resolveStmt context body (resolveExpr context condition w)
  | .function declaration, w =>
      resolveFunction context .function declaration
        ((w.declare declaration.name).define declaration.name)
  | .ret keyword value, w =>
      resolveOption context value (checkReturn context keyword value.isSome w)
  | .class_ name methods, w =>
      ((w.declare name).define name).within (Bindings.empty.insert thisName true)
        (resolveMethods { context with inClass := true } methods)

def resolveStmts (context : Context) : List (Stmt NodeId) → Walk → Walk
  | [], w => w
  | s :: ss, w => resolveStmts context ss (resolveStmt context s w)

/-- The parameters and the body of a function share one frame. -/
def resolveFunction (context : Context) (role : Role) : FunctionDecl NodeId → Walk → Walk
  | ⟨_, params, body⟩, w =>
      w.within .empty fun w =>
        resolveStmts { context with role := some role } body
          (params.foldl (fun w param => (w.declare param).define param) w)

def resolveMethods (context : Context) : List (FunctionDecl NodeId) → Walk → Walk
  | [], w => w
  | m :: ms, w => resolveMethods context ms (resolveFunction context (methodRole m.name) m w)

end

/-- The distances of the references of a program, and the faults against the rules of scopes. -/
structure Resolved where
  hops : Hops
  reports : List Diagnostic

/-- Resolves a program that runs where the names in `globals` are known. -/
def resolve (globals : List String) (program : List (Stmt NodeId)) : Resolved :=
  let w := resolveStmts .topLevel program ⟨[], globals, ∅, #[]⟩
  ⟨w.hops, w.reports.toList⟩

end Resolution

end Lox
