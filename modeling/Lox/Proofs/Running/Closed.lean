import Lox.Evaluation

namespace Lox

/-- The ending with another machine left. -/
def Ending.leaving {α : Type} (f : Machine → Machine) : Ending α → Ending α
  | .done value m => .done value (f m)
  | .failed fault m => .failed fault (f m)
  | .unfinished => .unfinished

namespace Run

theorem inScope_eq {α : Type} (scope : ScopeId) (body : Run α) (m : Machine) :
    inScope scope body m =
      (body { m with current := scope }).leaving fun m' => { m' with current := m.current } := by
  unfold inScope
  cases body { m with current := scope } <;> rfl

theorem counted_eq {α : Type} (body : Run α) (m : Machine) :
    counted body m =
      (body { m with depth := m.depth + 1 }).leaving fun m' =>
        { m' with depth := m'.depth - 1 } := by
  unfold counted
  cases body { m with depth := m.depth + 1 } <;> rfl

/-- The elementary steps have the property, and so do runs that are joined of such as have it. -/
structure Closed (P : ∀ {α : Type}, Run α → Prop) : Prop where
  pure {α : Type} (value : α) : P (Pure.pure value : Run α)
  fail {α : Type} (fault : Diagnostic) : P (Run.fail fault : Run α)
  unfinished {α : Type} : P (Run.unfinished : Run α)
  bind {α β : Type} {r : Run α} {k : α → Run β} : P r → (∀ a, P (k a)) → P (r >>= k)
  inScope {α : Type} {r : Run α} (scope : ScopeId) : P r → P (Run.inScope scope r)
  counted {α : Type} {r : Run α} : P r → P (Run.counted r)
  newScope (outer : ScopeId) : P (Run.newScope outer)
  newInnerScope : P Run.newInnerScope
  define (scope : ScopeId) (name : String) (value : Value) : P (Run.define scope name value)
  defineHere (name : Token) (value : Value) : P (Run.defineHere name value)
  lookUp (node : NodeId) (name : Token) : P (Run.lookUp node name)
  assign (node : NodeId) (name : Token) (value : Value) : P (Run.assign node name value)
  newIdentity : P Run.newIdentity
  newInstance : P Run.newInstance
  field? (inst : Identity) (name : String) : P (Run.field? inst name)
  setField (inst : Identity) (name : String) (value : Value) : P (Run.setField inst name value)
  write (piece : String) : P (Run.write piece)
  readClock : P Run.readClock
  makeFunction (declaration : FunctionDecl NodeId) : P (Run.makeFunction declaration)
  makeClass (name : Token) (methods : List (FunctionDecl NodeId)) : P (Run.makeClass name methods)
  checkCall (callee : Value) (count : Nat) (paren : Token) : P (Run.checkCall callee count paren)
  result (routine : Routine) (flow : Flow) : P (Run.result routine flow)

/-- Whatever is run with this fuel has the property. -/
structure Everywhere (P : ∀ {α : Type}, Run α → Prop) (n : Nat) : Prop where
  evaluate : ∀ e, P (Lox.evaluate n e)
  evaluateAll : ∀ es, P (Lox.evaluateAll n es)
  callValue : ∀ callee paren arguments, P (Lox.callValue n callee paren arguments)
  invoke : ∀ callee arguments, P (Lox.invoke n callee arguments)
  runRoutine : ∀ r arguments, P (Lox.runRoutine n r arguments)
  execute : ∀ s, P (Lox.execute n s)
  executeAll : ∀ ss, P (Lox.executeAll n ss)

end Run

namespace Run.Closed

variable {P : ∀ {α : Type}, Run α → Prop} {n : Nat}

theorem ofExcept (h : Closed P) {α : Type} (place : Token) (result : Except RuntimeFault α) :
    P (Run.ofExcept place result) := by
  cases result with
  | ok value => exact h.pure value
  | error fault => exact h.fail _

theorem defineAll (h : Closed P) (scope : ScopeId) (params : List Token) (arguments : List Value) :
    P (Run.defineAll scope params arguments) := by
  induction params generalizing arguments with
  | nil => exact h.pure ()
  | cons param params ih =>
      cases arguments with
      | nil => exact h.pure ()
      | cons argument arguments =>
          exact h.bind (h.define scope param.lexeme argument) fun _ => ih arguments

theorem writeAll (h : Closed P) (pieces : List String) : P (Run.writeAll pieces) := by
  induction pieces with
  | nil => exact h.pure ()
  | cons piece pieces ih => exact h.bind (h.write piece) fun _ => ih

theorem print (h : Closed P) (value : Value) : P (Run.print value) := h.writeAll _

theorem bindMethod (h : Closed P) (routine : Routine) (receiver : Value) :
    P (Run.bindMethod routine receiver) :=
  h.bind (h.newScope routine.scope) fun scope =>
    h.bind (h.define scope _ receiver) fun _ => h.bind h.newIdentity fun _ => h.pure _

theorem getProperty (h : Closed P) (object : Value) (name : Token) :
    P (Run.getProperty object name) := by
  cases object with
  | instance_ inst c =>
      refine h.bind (h.field? inst name.lexeme) fun found => ?_
      cases found with
      | some value => exact h.pure value
      | none =>
          dsimp only
          split
          · rename_i method _
            exact h.bind (h.bindMethod method _) fun _ => h.pure _
          · exact h.fail _
  | _ => exact h.fail _

theorem evaluate (h : Closed P) (ih : Everywhere P n) (e : Expr NodeId) :
    P (Lox.evaluate (n + 1) e) := by
  cases e with
  | literal value => exact h.pure _
  | grouping inner => exact ih.evaluate inner
  | unary operator operand => exact h.bind (ih.evaluate operand) fun _ => h.ofExcept _ _
  | binary left operator right =>
      exact h.bind (ih.evaluate left) fun _ =>
        h.bind (ih.evaluate right) fun _ => h.ofExcept _ _
  | logical left operator right =>
      refine h.bind (ih.evaluate left) fun value => ?_
      split
      · exact h.pure value
      · exact ih.evaluate right
  | var node name => exact h.lookUp node name
  | assign node name value =>
      exact h.bind (ih.evaluate value) fun v => h.bind (h.assign node name v) fun _ => h.pure v
  | call callee paren arguments =>
      exact h.bind (ih.evaluate callee) fun v =>
        h.bind (ih.evaluateAll arguments) fun vs => ih.callValue v paren vs
  | get object name => exact h.bind (ih.evaluate object) fun v => h.getProperty v name
  | set object name value =>
      refine h.bind (ih.evaluate object) fun holder => ?_
      cases holder with
      | instance_ inst c =>
          exact h.bind (ih.evaluate value) fun v =>
            h.bind (h.setField inst name.lexeme v) fun _ => h.pure v
      | _ => exact h.fail _
  | this node keyword => exact h.lookUp node keyword

theorem evaluateAll (h : Closed P) (ih : Everywhere P n) (es : List (Expr NodeId)) :
    P (Lox.evaluateAll (n + 1) es) := by
  cases es with
  | nil => exact h.pure []
  | cons e es =>
      exact h.bind (ih.evaluate e) fun _ => h.bind (ih.evaluateAll es) fun _ => h.pure _

theorem callValue (h : Closed P) (ih : Everywhere P n) (callee : Value) (paren : Token)
    (arguments : List Value) : P (Lox.callValue (n + 1) callee paren arguments) :=
  h.bind (h.checkCall callee arguments.length paren) fun _ => h.counted (ih.invoke callee arguments)

theorem invoke (h : Closed P) (ih : Everywhere P n) (callee : Value) (arguments : List Value) :
    P (Lox.invoke (n + 1) callee arguments) := by
  cases callee with
  | native f => exact h.bind h.readClock fun _ => h.pure _
  | function f => exact ih.runRoutine f.routine arguments
  | class_ c =>
      refine h.bind h.newInstance fun inst => ?_
      split
      · exact h.pure _
      · rename_i routine _
        exact h.bind (h.bindMethod routine _) fun closure =>
          h.bind (ih.runRoutine closure.routine arguments) fun _ => h.pure _
  | nil | boolean | number | string | instance_ => exact h.pure _

theorem runRoutine (h : Closed P) (ih : Everywhere P n) (r : Routine) (arguments : List Value) :
    P (Lox.runRoutine (n + 1) r arguments) :=
  h.bind (h.newScope r.scope) fun scope =>
    h.bind (h.defineAll scope r.declaration.params arguments) fun _ =>
      h.bind (h.inScope scope (ih.executeAll r.declaration.body)) fun flow => h.result r flow

theorem execute (h : Closed P) (ih : Everywhere P n) (s : Stmt NodeId) :
    P (Lox.execute (n + 1) s) := by
  cases s with
  | expression e => exact h.bind (ih.evaluate e) fun _ => h.pure _
  | print e => exact h.bind (ih.evaluate e) fun v => h.bind (h.print v) fun _ => h.pure _
  | var name initial =>
      cases initial with
      | none => exact h.bind (h.defineHere name .nil) fun _ => h.pure _
      | some e =>
          exact h.bind (ih.evaluate e) fun v => h.bind (h.defineHere name v) fun _ => h.pure _
  | block body => exact h.bind h.newInnerScope fun scope => h.inScope scope (ih.executeAll body)
  | branch condition consequent alternative =>
      refine h.bind (ih.evaluate condition) fun value => ?_
      split
      · exact ih.execute consequent
      · cases alternative with
        | none => exact h.pure _
        | some alternative => exact ih.execute alternative
  | loop condition body =>
      refine h.bind (ih.evaluate condition) fun value => ?_
      split
      · refine h.bind (ih.execute body) fun flow => ?_
        cases flow with
        | normal => exact ih.execute (.loop condition body)
        | returned v => exact h.pure _
      · exact h.pure _
  | function declaration =>
      exact h.bind (h.makeFunction declaration) fun v =>
        h.bind (h.defineHere declaration.name v) fun _ => h.pure _
  | ret keyword value =>
      cases value with
      | none => exact h.pure _
      | some e => exact h.bind (ih.evaluate e) fun _ => h.pure _
  | class_ name methods =>
      exact h.bind (h.makeClass name methods) fun v =>
        h.bind (h.defineHere name v) fun _ => h.pure _

theorem executeAll (h : Closed P) (ih : Everywhere P n) (ss : List (Stmt NodeId)) :
    P (Lox.executeAll (n + 1) ss) := by
  cases ss with
  | nil => exact h.pure _
  | cons s ss =>
      refine h.bind (ih.execute s) fun flow => ?_
      cases flow with
      | normal => exact ih.executeAll ss
      | returned v => exact h.pure _

theorem everywhere (h : Closed P) (n : Nat) : Everywhere P n := by
  induction n with
  | zero =>
      constructor
      all_goals
        intros
        exact h.unfinished
  | succ n ih =>
      exact ⟨h.evaluate ih, h.evaluateAll ih, h.callValue ih, h.invoke ih, h.runRoutine ih,
        h.execute ih, h.executeAll ih⟩

end Run.Closed

end Lox
