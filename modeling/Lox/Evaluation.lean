import Lox.Machine

/-!
The meaning of expressions and statements.

`evaluate` and `execute` follow the tree. Their first argument bounds the depth to which they do:
every step goes one deeper, and a run that is not done when the bound is used up is `unfinished`.
-/

namespace Lox

/-- What a statement does to those after it: nothing, or it ends the function they are in. -/
inductive Flow
  | normal
  | returned (value : Value)

namespace Operator

/-- The result of a unary operator. -/
def unary (operator : Kind) (operand : Value) : Except RuntimeFault Value :=
  match operator with
  | .symbol .bang => .ok (.boolean !operand.truthy)
  | .symbol .minus =>
      match operand with
      | .number n => .ok (.number (-n))
      | _ => .error .operandNotNumber
  | _ => .error .notUnaryOperator

/-- The result of `+`, which joins strings as well as it adds numbers. -/
def plus (left right : Value) : Except RuntimeFault Value :=
  match left with
  | .number a =>
      match right with
      | .number b => .ok (.number (a + b))
      | _ => .error .operandsNotAddable
  | .string a =>
      match right with
      | .string b => .ok (.string (a ++ b))
      | _ => .error .operandsNotAddable
  | _ => .error .operandsNotAddable

/-- The result of an operator that is for numbers only. -/
def arithmetic (operator : Kind) (a b : Float) : Except RuntimeFault Value :=
  match operator with
  | .symbol .minus => .ok (.number (a - b))
  | .symbol .star => .ok (.number (a * b))
  | .symbol .slash => if b == 0 then .error .divisionByZero else .ok (.number (a / b))
  | .symbol .greater => .ok (.boolean (b < a))
  | .symbol .greaterEqual => .ok (.boolean (b ≤ a))
  | .symbol .less => .ok (.boolean (a < b))
  | .symbol .lessEqual => .ok (.boolean (a ≤ b))
  | _ => .error .notBinaryOperator

/-- The result of a binary operator. -/
def binary (operator : Kind) (left right : Value) : Except RuntimeFault Value :=
  match operator with
  | .symbol .equalEqual => .ok (.boolean (left.equals right))
  | .symbol .bangEqual => .ok (.boolean !left.equals right)
  | .symbol .plus => plus left right
  | _ =>
      match left with
      | .number a =>
          match right with
          | .number b => arithmetic operator a b
          | _ => .error .operandsNotNumbers
      | _ => .error .operandsNotNumbers

/-- The left operand of a logical operator decides the result alone: `or` if it counts as true, and
any other operator if it does not. -/
def decides (operator : Kind) (left : Value) : Bool :=
  if operator = .keyword .or_ then left.truthy else !left.truthy

end Operator

/-- The initializer that calling a class runs. -/
def Class.initializer? (c : Class) : Option Routine := c.methods.find? Resolution.initializerName

/-- How many arguments a value takes when it is called, if it can be called. -/
def Value.arity? : Value → Option Nat
  | native f => some f.arity
  | function f => some f.routine.arity
  | class_ c => some ((c.initializer?.map Routine.arity).getD 0)
  | _ => none

namespace Run

/-- The method as a function of its receiver, which stands in a scope around the method's body. -/
def bindMethod (routine : Routine) (receiver : Value) : Run Closure := do
  let scope ← newScope routine.scope
  define scope Resolution.thisName receiver
  let identity ← newIdentity
  pure ⟨identity, { routine with scope }⟩

/-- The property of an instance: a field, or else a method bound to it. -/
def getProperty (object : Value) (name : Token) : Run Value :=
  match object with
  | .instance_ inst c => do
      match ← field? inst name.lexeme with
      | some value => pure value
      | none =>
          match c.methods.find? name.lexeme with
          | some method => do
              let closure ← bindMethod method object
              pure (.function closure)
          | none => failAt name (.undefinedProperty name.lexeme)
  | _ => failAt name .noProperties

/-- Binds parameters to arguments, in order. -/
def defineAll (scope : ScopeId) : List Token → List Value → Run Unit
  | param :: params, argument :: arguments => do
      define scope param.lexeme argument
      defineAll scope params arguments
  | _, _ => pure ()

/-- The checks before a call: that the value can be called at all, that the number of arguments is
right, and that there is room for another call. -/
def checkCall (callee : Value) (count : Nat) (paren : Token) : Run Unit := fun m =>
  match callee.arity? with
  | none => failAt paren .notCallable m
  | some arity =>
      if count ≠ arity then failAt paren (.wrongArgumentCount arity count) m
      else if callLimit ≤ m.depth then failAt paren .stackOverflow m
      else .done () m

/-- What a call answers once the body of its function has ended. -/
def result (routine : Routine) (flow : Flow) : Run Value := fun m =>
  if routine.initializes then
    .done ((m.scopes.getAt? routine.scope 0 Resolution.thisName).getD .nil) m
  else
    match flow with
    | .returned value => .done value m
    | .normal => .done .nil m

/-- The function that a declaration makes here. -/
def makeFunction (declaration : FunctionDecl NodeId) : Run Value := fun m =>
  .done (.function ⟨m.fresh, ⟨declaration, m.current, false⟩⟩) { m with fresh := m.fresh + 1 }

/-- The class that a declaration makes here. Of two methods of one name the later one counts. -/
def makeClass (name : Token) (methods : List (FunctionDecl NodeId)) : Run Value := fun m =>
  let table := methods.foldl (fun table method =>
    table.insert method.name.lexeme
      ⟨method, m.current, method.name.lexeme = Resolution.initializerName⟩) Bindings.empty
  .done (.class_ ⟨m.fresh, name.lexeme, table⟩) { m with fresh := m.fresh + 1 }

/-- Binds a name in the current scope. -/
def defineHere (name : Token) (value : Value) : Run Unit := fun m =>
  define m.current name.lexeme value m

end Run

open Run in
mutual

def evaluate : Nat → Expr NodeId → Run Value
  | 0, _ => unfinished
  | _ + 1, .literal value => pure (.ofLiteral value)
  | fuel + 1, .grouping inner => evaluate fuel inner
  | fuel + 1, .unary operator operand => do
      let value ← evaluate fuel operand
      ofExcept operator (Operator.unary operator.kind value)
  | fuel + 1, .binary left operator right => do
      let a ← evaluate fuel left
      let b ← evaluate fuel right
      ofExcept operator (Operator.binary operator.kind a b)
  | fuel + 1, .logical left operator right => do
      let value ← evaluate fuel left
      if Operator.decides operator.kind value then pure value else evaluate fuel right
  | _ + 1, .var node name => lookUp node name
  | fuel + 1, .assign node name value => do
      let value ← evaluate fuel value
      assign node name value
      pure value
  | fuel + 1, .call callee paren arguments => do
      let callee ← evaluate fuel callee
      let arguments ← evaluateAll fuel arguments
      callValue fuel callee paren arguments
  | fuel + 1, .get object name => do
      let object ← evaluate fuel object
      getProperty object name
  | fuel + 1, .set object name value => do
      match ← evaluate fuel object with
      | .instance_ inst _ => do
          let value ← evaluate fuel value
          setField inst name.lexeme value
          pure value
      | _ => failAt name .noFields
  | _ + 1, .this node keyword => lookUp node keyword

/-- The values of several expressions, in order. -/
def evaluateAll : Nat → List (Expr NodeId) → Run (List Value)
  | 0, _ => unfinished
  | _ + 1, [] => pure []
  | fuel + 1, e :: es => do
      let value ← evaluate fuel e
      let values ← evaluateAll fuel es
      pure (value :: values)

/-- A call at the token `paren`. -/
def callValue : Nat → Value → Token → List Value → Run Value
  | 0, _, _, _ => unfinished
  | fuel + 1, callee, paren, arguments => do
      checkCall callee arguments.length paren
      counted (invoke fuel callee arguments)

/-- What a value does when it is called. A class makes a new instance and runs its initializer on
it. -/
def invoke : Nat → Value → List Value → Run Value
  | 0, _, _ => unfinished
  | fuel + 1, callee, arguments =>
      match callee with
      | .native .clock => do
          let time ← readClock
          pure (.number time)
      | .function f => runRoutine fuel f.routine arguments
      | .class_ c => do
          let inst ← newInstance
          let object := Value.instance_ inst c
          match c.initializer? with
          | none => pure object
          | some routine => do
              let closure ← bindMethod routine object
              let _ ← runRoutine fuel closure.routine arguments
              pure object
      | _ => pure .nil

/-- Runs the body of a function in a new scope that holds the arguments. -/
def runRoutine : Nat → Routine → List Value → Run Value
  | 0, _, _ => unfinished
  | fuel + 1, routine, arguments => do
      let scope ← newScope routine.scope
      defineAll scope routine.declaration.params arguments
      let flow ← inScope scope (executeAll fuel routine.declaration.body)
      result routine flow

def execute : Nat → Stmt NodeId → Run Flow
  | 0, _ => unfinished
  | fuel + 1, .expression e => do
      let _ ← evaluate fuel e
      pure .normal
  | fuel + 1, .print e => do
      let value ← evaluate fuel e
      print value
      pure .normal
  | _ + 1, .var name none => do
      defineHere name .nil
      pure .normal
  | fuel + 1, .var name (some initial) => do
      let value ← evaluate fuel initial
      defineHere name value
      pure .normal
  | fuel + 1, .block body => do
      let scope ← newInnerScope
      inScope scope (executeAll fuel body)
  | fuel + 1, .branch condition consequent alternative => do
      let value ← evaluate fuel condition
      if value.truthy then execute fuel consequent
      else
        match alternative with
        | none => pure .normal
        | some alternative => execute fuel alternative
  | fuel + 1, .loop condition body => do
      let value ← evaluate fuel condition
      if value.truthy then
        match ← execute fuel body with
        | .normal => execute fuel (.loop condition body)
        | .returned value => pure (.returned value)
      else pure .normal
  | _ + 1, .function declaration => do
      let value ← makeFunction declaration
      defineHere declaration.name value
      pure .normal
  | _ + 1, .ret _ none => pure (.returned .nil)
  | fuel + 1, .ret _ (some value) => do
      let value ← evaluate fuel value
      pure (.returned value)
  | _ + 1, .class_ name methods => do
      let value ← makeClass name methods
      defineHere name value
      pure .normal

/-- Statements in order, up to the first that returns. -/
def executeAll : Nat → List (Stmt NodeId) → Run Flow
  | 0, _ => unfinished
  | _ + 1, [] => pure .normal
  | fuel + 1, s :: ss => do
      match ← execute fuel s with
      | .normal => executeAll fuel ss
      | .returned value => pure (.returned value)

end

namespace Machine

/-- The names of the globals. -/
def globalNames (m : Machine) : List String := m.scopes.names globalScope

/-- The machine between two units: back in the outermost scope, with no call in progress. -/
def atRest (m : Machine) : Machine := { m with current := globalScope, depth := 0 }

/-- Runs a program to its end, or to a `return` outside all functions, and then flushes the sink.
If that fails, it is what the user is told. -/
def interpret (fuel : Nat) (program : List (Stmt NodeId)) : Run Unit := fun m =>
  let flush (ending : Machine → Ending Unit) (m : Machine) : Ending Unit :=
    let m := m.atRest
    if m.sink.flushes then ending m else .failed (.output .flushFailed) m
  match executeAll fuel program m with
  | .done _ m => flush (.done ()) m
  | .failed fault m => flush (.failed fault) m
  | .unfinished => .unfinished

end Machine

end Lox
