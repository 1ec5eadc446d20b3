import Lox.Bindings
import Lox.Number.Text
import Lox.Scopes
import Lox.Tree

/-!
The values of a running program.

Functions, classes and instances are told apart by an identity that each gets when it is made, so
two of them are equal only if they are the same one. What changes during a run, variables and
fields, is not in the values but in the machine that runs the program.
-/

namespace Lox

abbrev Identity := Nat

/-- A function that the program finds already defined. -/
inductive Native
  | clock
  deriving DecidableEq, Repr

namespace Native

def name : Native → String
  | clock => "clock"

def arity : Native → Nat
  | clock => 0

end Native

/-- A function body with the scope in which it was declared. The initializer of a class answers its
receiver, whatever its body returns. -/
structure Routine where
  declaration : FunctionDecl NodeId
  scope : ScopeId
  initializes : Bool

def Routine.arity (r : Routine) : Nat := r.declaration.params.length

structure Closure where
  identity : Identity
  routine : Routine

structure Class where
  identity : Identity
  name : String
  methods : Bindings Routine

inductive Value
  | nil
  | boolean (b : Bool)
  | number (n : Float)
  | string (s : String)
  | native (f : Native)
  | function (f : Closure)
  | class_ (c : Class)
  | instance_ (identity : Identity) (c : Class)

namespace Value

def ofLiteral : Literal → Value
  | .nil => nil
  | .boolean b => boolean b
  | .number n => number n
  | .string s => string s

/-- What a program prints for a value. -/
def text : Value → String
  | nil => "nil"
  | boolean b => if b then "true" else "false"
  | number n => Number.text n
  | string s => s
  | native _ => "<native fn>"
  | function f => "<fn " ++ f.routine.declaration.name.lexeme ++ ">"
  | class_ c => c.name
  | instance_ _ c => c.name ++ " instance"

/-- The pieces in which that text is written. -/
def pieces : Value → List String
  | function f => ["<fn ", f.routine.declaration.name.lexeme, ">"]
  | instance_ _ c => [c.name, " instance"]
  | v => [v.text]

theorem join_pieces (v : Value) : String.join v.pieces = v.text := by
  cases v <;> simp [pieces, text, String.join]

/-- Every value but `nil` and `false` counts as true. -/
def truthy : Value → Bool
  | nil => false
  | boolean b => b
  | _ => true

/-- Numbers are compared as numbers, so the two zeros are equal and what is no number differs from
itself. Values of different types are never equal. -/
def equals : Value → Value → Bool
  | nil, nil => true
  | boolean a, boolean b => a == b
  | number a, number b => a == b
  | string a, string b => a == b
  | native f, native g => f = g
  | function f, function g => f.identity = g.identity
  | class_ c, class_ d => c.identity = d.identity
  | instance_ i _, instance_ j _ => i = j
  | _, _ => false

/-- The name of the type of a value. -/
def typeName : Value → String
  | nil => "nil"
  | boolean _ => "boolean"
  | number _ => "number"
  | string _ => "string"
  | native _ => "function"
  | function _ => "function"
  | class_ _ => "class"
  | instance_ _ _ => "instance"

end Value

end Lox
