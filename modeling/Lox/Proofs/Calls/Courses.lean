import Lox.Proofs.Separation.Endings

/-!
The order in which a run comes to its parts.

The parts of a moment follow one another: each begins on the machine that the one before it leaves,
which is done, and a statement is only followed by another part if it does not return. The activity
of a function is what its body comes to by itself, in this order, without what the functions that it
calls come to.
-/

namespace Lox

open Run

variable {n : Nat} {m m' : Machine} {x y : Moment}

namespace Ending

variable {α β : Type}

/-- What comes after a run, if it is done. -/
def next (ending : Ending α) (k : α → Machine → List β) : List β :=
  match ending with
  | .done a m => k a m
  | _ => []

theorem mem_next_iff {ending : Ending α} {k : α → Machine → List β} {b : β} :
    b ∈ ending.next k ↔ ∃ a m, ending = .done a m ∧ b ∈ k a m := by
  cases ending with
  | done a m =>
      constructor
      · intro h
        exact ⟨a, m, rfl, h⟩
      · rintro ⟨a, m, ⟨⟩, h⟩
        exact h
  | _ => simp [next]

end Ending

/-- Binds the method that a property is, if it is no field. -/
def Value.propertyParts (n : Nat) (name : Token) (m : Machine) : Value → List Moment
  | .instance_ i c =>
      match (m.instances[i]?).bind (fun fields => fields.find? name.lexeme),
        c.methods.find? name.lexeme with
      | none, some method => [⟨n, .bindMethod method (.instance_ i c), m⟩]
      | _, _ => []
  | _ => []

def Expr.parts (n : Nat) (m : Machine) : Expr NodeId → List Moment
  | .literal _ => []
  | .grouping e | .unary _ e => [⟨n, .evaluate e, m⟩]
  | .binary a _ b =>
      ⟨n, .evaluate a, m⟩ :: (evaluate n a m).next fun _ m => [⟨n, .evaluate b, m⟩]
  | .logical a operator b =>
      ⟨n, .evaluate a, m⟩ :: (evaluate n a m).next fun v m =>
        if Operator.decides operator.kind v then [] else [⟨n, .evaluate b, m⟩]
  | .var node name | .this node name => [⟨n, .lookUp node name, m⟩]
  | .assign node name e =>
      ⟨n, .evaluate e, m⟩ :: (evaluate n e m).next fun v m => [⟨n, .assign node name v, m⟩]
  | .call callee paren es =>
      ⟨n, .evaluate callee, m⟩ :: (evaluate n callee m).next fun v m =>
        ⟨n, .evaluateAll es, m⟩ :: (evaluateAll n es m).next fun vs m =>
          [⟨n, .callValue v paren vs, m⟩]
  | .get object name =>
      ⟨n, .evaluate object, m⟩ :: (evaluate n object m).next fun v m => v.propertyParts n name m
  | .set object _ e =>
      ⟨n, .evaluate object, m⟩ :: (evaluate n object m).next fun v m =>
        match v with
        | .instance_ _ _ => [⟨n, .evaluate e, m⟩]
        | _ => []

def Value.callParts (n : Nat) (vs : List Value) (m : Machine) : Value → List Moment
  | .function f => [⟨n, .runRoutine f.routine vs, m⟩]
  | .class_ c =>
      match c.initializer? with
      | none => []
      | some r =>
          [⟨n, .bindMethod r (.instance_ m.instances.size c), m.addInstance⟩,
            ⟨n, .runRoutine { r with scope := m.scopes.size } vs,
              m.addInstance.bind r (.instance_ m.instances.size c)⟩]
  | _ => []

def Stmt.parts (n : Nat) (m : Machine) : Stmt NodeId → List Moment
  | .expression e | .print e | .var _ (some e) | .ret _ (some e) => [⟨n, .evaluate e, m⟩]
  | .var _ none | .ret _ none | .function _ | .class_ _ _ => []
  | .block body => [⟨n, .executeAll body, m.enterBlock⟩]
  | .branch condition consequent alternative =>
      ⟨n, .evaluate condition, m⟩ :: (evaluate n condition m).next fun v m =>
        if v.truthy then [⟨n, .execute consequent, m⟩]
        else (alternative.map fun s => (⟨n, .execute s, m⟩ : Moment)).toList
  | .loop condition body =>
      ⟨n, .evaluate condition, m⟩ :: (evaluate n condition m).next fun v m =>
        if v.truthy then
          ⟨n, .execute body, m⟩ :: (execute n body m).next fun flow m =>
            match flow with
            | .normal => [⟨n, .execute (.loop condition body), m⟩]
            | .returned _ => []
        else []

/-- What a moment comes to directly, in order. -/
def Moment.parts : Moment → List Moment
  | ⟨0, _, _⟩ => []
  | ⟨n + 1, task, m⟩ =>
      match task with
      | .evaluate e => e.parts n m
      | .evaluateAll [] => []
      | .evaluateAll (e :: es) =>
          ⟨n, .evaluate e, m⟩ :: (Lox.evaluate n e m).next fun _ m => [⟨n, .evaluateAll es, m⟩]
      | .callValue callee paren vs =>
          (checkCall callee vs.length paren m).next fun _ m => [⟨n, .invoke callee vs, m.countCall⟩]
      | .invoke callee vs => callee.callParts n vs m
      | .runRoutine r vs => [⟨n, .executeAll r.declaration.body, m.enterCall r vs⟩]
      | .execute s => s.parts n m
      | .executeAll [] => []
      | .executeAll (s :: ss) =>
          ⟨n, .execute s, m⟩ :: (Lox.execute n s m).next fun flow m =>
            match flow with
            | .normal => [⟨n, .executeAll ss, m⟩]
            | .returned _ => []
      | .lookUp _ _ | .assign _ _ _ | .bindMethod _ _ => []

theorem Part.mem_parts (h : Part x y) : y ∈ x.parts := by
  cases h with
  | invoke h => simp [Moment.parts, h, Ending.next]
  | right h | assign h | arguments h | held h | othersOf h =>
      simp [Moment.parts, Expr.parts, h, Ending.next]
  | undecided h hv => simp [Moment.parts, Expr.parts, h, Ending.next, hv]
  | call h hs => simp [Moment.parts, Expr.parts, h, hs, Ending.next]
  | method h hfield hmethod =>
      simp [Moment.parts, Expr.parts, Value.propertyParts, h, hfield, hmethod, Ending.next]
  | receiver h | initializer h => simp [Moment.parts, Value.callParts, h]
  | consequent h hv | alternative h hv | loopBody h hv =>
      simp [Moment.parts, Stmt.parts, h, hv, Ending.next]
  | loopAgain h hv hs => simp [Moment.parts, Stmt.parts, h, hv, hs, Ending.next]
  | others h => simp [Moment.parts, h, Ending.next]
  | _ => simp [Moment.parts, Expr.parts, Value.callParts, Stmt.parts]

theorem Part.of_mem_expr_parts {e : Expr NodeId} (h : y ∈ e.parts n m) :
    Part ⟨n + 1, .evaluate e, m⟩ y := by
  cases e with
  | literal value => cases h
  | grouping e | unary operator e | var node name | this node keyword =>
      obtain rfl := List.mem_singleton.mp h
      constructor
  | binary a operator b =>
      rcases List.mem_cons.mp h with rfl | h
      · exact .left
      · obtain ⟨v, m', ha, h⟩ := Ending.mem_next_iff.mp h
        obtain rfl := List.mem_singleton.mp h
        exact .right ha
  | logical a operator b =>
      rcases List.mem_cons.mp h with rfl | h
      · exact .deciding
      · obtain ⟨v, m', ha, h⟩ := Ending.mem_next_iff.mp h
        split at h
        · cases h
        · rename_i hv
          obtain rfl := List.mem_singleton.mp h
          exact .undecided ha ((Bool.not_eq_true _).mp hv)
  | assign node name e =>
      rcases List.mem_cons.mp h with rfl | h
      · exact .assigned
      · obtain ⟨v, m', he, h⟩ := Ending.mem_next_iff.mp h
        obtain rfl := List.mem_singleton.mp h
        exact .assign he
  | call callee paren es =>
      rcases List.mem_cons.mp h with rfl | h
      · exact .callee
      · obtain ⟨v, m', hcallee, h⟩ := Ending.mem_next_iff.mp h
        rcases List.mem_cons.mp h with rfl | h
        · exact .arguments hcallee
        · obtain ⟨vs, m'', hes, h⟩ := Ending.mem_next_iff.mp h
          obtain rfl := List.mem_singleton.mp h
          exact .call hcallee hes
  | get object name =>
      rcases List.mem_cons.mp h with rfl | h
      · exact .object
      · obtain ⟨v, m', hobject, h⟩ := Ending.mem_next_iff.mp h
        cases v with
        | instance_ i c =>
            unfold Value.propertyParts at h
            dsimp only at h
            split at h
            · rename_i hfield hmethod
              obtain rfl := List.mem_singleton.mp h
              exact .method hobject hfield hmethod
            · cases h
        | _ => cases h
  | set object name e =>
      rcases List.mem_cons.mp h with rfl | h
      · exact .holder
      · obtain ⟨v, m', hobject, h⟩ := Ending.mem_next_iff.mp h
        cases v with
        | instance_ i c =>
            obtain rfl := List.mem_singleton.mp h
            exact .held hobject
        | _ => cases h

theorem Part.of_mem_call_parts {callee : Value} {vs : List Value}
    (h : y ∈ callee.callParts n vs m) : Part ⟨n + 1, .invoke callee vs, m⟩ y := by
  cases callee with
  | function f =>
      obtain rfl := List.mem_singleton.mp h
      exact .function
  | class_ c =>
      unfold Value.callParts at h
      dsimp only at h
      cases hr : c.initializer? with
      | none =>
          rw [hr] at h
          cases h
      | some r =>
          rw [hr] at h
          rcases List.mem_cons.mp h with rfl | h
          · exact .receiver hr
          · obtain rfl := List.mem_singleton.mp h
            exact .initializer hr
  | _ => cases h

theorem Part.of_mem_stmt_parts {s : Stmt NodeId} (h : y ∈ s.parts n m) :
    Part ⟨n + 1, .execute s, m⟩ y := by
  cases s with
  | expression e | print e | block body =>
      obtain rfl := List.mem_singleton.mp h
      constructor
  | var name e | ret keyword e =>
      cases e with
      | none => cases h
      | some e =>
          obtain rfl := List.mem_singleton.mp h
          constructor
  | function d | class_ name methods => cases h
  | branch condition consequent alternative =>
      rcases List.mem_cons.mp h with rfl | h
      · exact .condition
      · obtain ⟨v, m', hcondition, h⟩ := Ending.mem_next_iff.mp h
        split at h
        · rename_i hv
          obtain rfl := List.mem_singleton.mp h
          exact .consequent hcondition hv
        · rename_i hv
          cases alternative with
          | none => cases h
          | some alternative =>
              obtain rfl := List.mem_singleton.mp h
              exact .alternative hcondition hv
  | loop condition body =>
      rcases List.mem_cons.mp h with rfl | h
      · exact .loopCondition
      · obtain ⟨v, m', hcondition, h⟩ := Ending.mem_next_iff.mp h
        split at h
        · rename_i hv
          rcases List.mem_cons.mp h with rfl | h
          · exact .loopBody hcondition hv
          · obtain ⟨flow, m'', hbody, h⟩ := Ending.mem_next_iff.mp h
            cases flow with
            | normal =>
                obtain rfl := List.mem_singleton.mp h
                exact .loopAgain hcondition hv hbody
            | returned v => cases h
        · cases h

theorem Part.of_mem_parts (h : y ∈ x.parts) : Part x y := by
  obtain ⟨_ | n, task, m⟩ := x
  · cases h
  · cases task with
    | evaluate e => exact .of_mem_expr_parts h
    | invoke callee vs => exact .of_mem_call_parts h
    | execute s => exact .of_mem_stmt_parts h
    | evaluateAll es =>
        cases es with
        | nil => cases h
        | cons e es =>
            rcases List.mem_cons.mp h with rfl | h
            · exact .firstOf
            · obtain ⟨v, m', he, h⟩ := Ending.mem_next_iff.mp h
              obtain rfl := List.mem_singleton.mp h
              exact .othersOf he
    | callValue callee paren vs =>
        obtain ⟨_, m', hcheck, h⟩ := Ending.mem_next_iff.mp h
        obtain rfl := List.mem_singleton.mp h
        obtain ⟨-, rfl⟩ := arity?_of_checkCall hcheck
        exact .invoke hcheck
    | runRoutine r vs =>
        obtain rfl := List.mem_singleton.mp h
        exact .body
    | executeAll ss =>
        cases ss with
        | nil => cases h
        | cons s ss =>
            rcases List.mem_cons.mp h with rfl | h
            · exact .first
            · obtain ⟨flow, m', hs, h⟩ := Ending.mem_next_iff.mp h
              cases flow with
              | normal =>
                  obtain rfl := List.mem_singleton.mp h
                  exact .others hs
              | returned v => cases h
    | lookUp node name | assign node name v | bindMethod r receiver => cases h

theorem mem_parts_iff : y ∈ x.parts ↔ Part x y := ⟨.of_mem_parts, Part.mem_parts⟩

/-- A statement, or several in order. -/
def Task.isStatement : Task → Bool
  | .execute _ | .executeAll _ => true
  | _ => false

/-- The second moment begins on the machine that the first leaves, which is done. If the first is a
statement, it does not return. -/
def Moment.GoesOnTo (x y : Moment) : Prop :=
  ∃ vs, x.ending = .done vs y.machine ∧ (x.task.isStatement → vs = [])

theorem evaluated_goesOnTo {e : Expr NodeId} {v : Value} (h : evaluate n e m = .done v y.machine) :
    Moment.GoesOnTo ⟨n, .evaluate e, m⟩ y :=
  ⟨[v], by rw [Moment.ending, h]; rfl, nofun⟩

theorem executed_goesOnTo {s : Stmt NodeId} (h : execute n s m = .done .normal y.machine) :
    Moment.GoesOnTo ⟨n, .execute s, m⟩ y :=
  ⟨[], by rw [Moment.ending, h]; rfl, fun _ => rfl⟩

section

variable {α : Type} {ending : Ending α} {k : α → Machine → List Moment}

theorem isChain_next (h : ∀ a m, ending = .done a m → (x :: k a m).IsChain Moment.GoesOnTo) :
    (x :: ending.next k).IsChain Moment.GoesOnTo := by
  cases ending with
  | done a m => exact h a m rfl
  | _ => exact .singleton x

end

theorem Expr.parts_isChain (n : Nat) (m : Machine) (e : Expr NodeId) :
    (e.parts n m).IsChain Moment.GoesOnTo := by
  cases e with
  | literal value => exact .nil
  | grouping e | unary operator e | var node name | this node keyword => exact .singleton _
  | binary a operator b =>
      refine isChain_next fun v m' ha => ?_
      exact .cons_cons (evaluated_goesOnTo ha) (.singleton _)
  | logical a operator b =>
      refine isChain_next fun v m' ha => ?_
      split
      · exact .singleton _
      · exact .cons_cons (evaluated_goesOnTo ha) (.singleton _)
  | assign node name e =>
      refine isChain_next fun v m' he => ?_
      exact .cons_cons (evaluated_goesOnTo he) (.singleton _)
  | call callee paren es =>
      refine isChain_next fun v m' hcallee => .cons_cons (evaluated_goesOnTo hcallee) ?_
      refine isChain_next fun vs m'' hes => ?_
      exact .cons_cons ⟨vs, hes, nofun⟩ (.singleton _)
  | get object name =>
      refine isChain_next fun v m' hobject => ?_
      unfold Value.propertyParts
      split
      · split
        · exact .cons_cons (evaluated_goesOnTo hobject) (.singleton _)
        · exact .singleton _
      · exact .singleton _
  | set object name e =>
      refine isChain_next fun v m' hobject => ?_
      split
      · exact .cons_cons (evaluated_goesOnTo hobject) (.singleton _)
      · exact .singleton _

theorem Value.callParts_isChain (n : Nat) (vs : List Value) (m : Machine) (callee : Value) :
    (callee.callParts n vs m).IsChain Moment.GoesOnTo := by
  unfold Value.callParts
  split
  · exact .singleton _
  · split
    · exact .nil
    · exact .cons_cons ⟨_, rfl, nofun⟩ (.singleton _)
  · exact .nil

theorem Stmt.parts_isChain (n : Nat) (m : Machine) (s : Stmt NodeId) :
    (s.parts n m).IsChain Moment.GoesOnTo := by
  cases s with
  | expression e | print e | block body => exact .singleton _
  | var name e | ret keyword e =>
      cases e with
      | none => exact .nil
      | some e => exact .singleton _
  | function d | class_ name methods => exact .nil
  | branch condition consequent alternative =>
      refine isChain_next fun v m' hcondition => ?_
      split
      · exact .cons_cons (evaluated_goesOnTo hcondition) (.singleton _)
      · cases alternative with
        | none => exact .singleton _
        | some alternative => exact .cons_cons (evaluated_goesOnTo hcondition) (.singleton _)
  | loop condition body =>
      refine isChain_next fun v m' hcondition => ?_
      split
      · refine .cons_cons (evaluated_goesOnTo hcondition) (isChain_next fun flow m'' hbody => ?_)
        cases flow with
        | normal => exact .cons_cons (executed_goesOnTo hbody) (.singleton _)
        | returned v => exact .singleton _
      · exact .singleton _

theorem Moment.parts_isChain (x : Moment) : x.parts.IsChain GoesOnTo := by
  obtain ⟨_ | n, task, m⟩ := x
  · exact .nil
  · cases task with
    | evaluate e => exact e.parts_isChain n m
    | invoke callee vs => exact callee.callParts_isChain n vs m
    | execute s => exact s.parts_isChain n m
    | evaluateAll es =>
        cases es with
        | nil => exact .nil
        | cons e es =>
            refine isChain_next fun v m' he => ?_
            exact .cons_cons (evaluated_goesOnTo he) (.singleton _)
    | callValue callee paren vs =>
        simp only [parts]
        cases checkCall callee vs.length paren m with
        | done _ m' => exact .singleton _
        | _ => exact .nil
    | runRoutine r vs => exact .singleton _
    | executeAll ss =>
        cases ss with
        | nil => exact .nil
        | cons s ss =>
            refine isChain_next fun flow m' hs => ?_
            cases flow with
            | normal => exact .cons_cons (executed_goesOnTo hs) (.singleton _)
            | returned v => exact .singleton _
    | lookUp node name | assign node name v | bindMethod r receiver => exact .nil

/-- The body of a function that is called, or of an initializer. -/
def Task.isRoutine : Task → Bool
  | .runRoutine _ _ => true
  | _ => false

/-- What a moment comes to directly, without the functions that it calls. -/
def Moment.ownParts (x : Moment) : List Moment := x.parts.filter fun y => !y.task.isRoutine

theorem mem_ownParts_iff : y ∈ x.ownParts ↔ Part x y ∧ y.task.isRoutine = false := by
  rw [Moment.ownParts, List.mem_filter, mem_parts_iff, Bool.not_eq_true']

/-- What a moment comes to, in order, without what the functions that it calls come to. -/
def Moment.activity (x : Moment) : List Moment :=
  x :: x.ownParts.attach.flatMap fun y => y.1.activity
termination_by x.fuel
decreasing_by exact (mem_ownParts_iff.mp y.2).1.fuel_lt

theorem Moment.activity_eq (x : Moment) : x.activity = x :: x.ownParts.flatMap activity := by
  rw [activity, List.flatMap_subtype (g := activity) (fun _ _ => rfl), List.unattach_attach]

end Lox
