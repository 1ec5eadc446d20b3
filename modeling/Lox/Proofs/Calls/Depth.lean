import Lox.Proofs.Running.Faults
import Lox.Proofs.Separation.Histories

/-!
How many calls are in progress.

A call is in progress while what it calls is executed. The machine counts such calls, and its count
is right whenever a part of a run begins or ends, so it never passes the limit. A call that is
refused has no effect: it fails on the machine that its callee and its arguments have left.
-/

namespace Lox

open Run

variable {m m' : Machine} {x y start : Moment} {trail : List Moment} {callee : Value}
  {paren : Token} {count : Nat}

theorem Value.arity?_eq_none_iff {v : Value} :
    v.arity? = none ↔ v.typeName ≠ "function" ∧ v.typeName ≠ "class" := by
  cases v <;> simp [Value.arity?, Value.typeName]

def Task.isCall : Task → Bool
  | .callValue _ _ _ => true
  | _ => false

/-- `Trail start trail x`: the moments in `trail` have begun and are not over when `x` begins. The
last one to begin stands first, and `start` last. -/
inductive Trail (start : Moment) : List Moment → Moment → Prop
  | start : Trail start [] start
  | part {trail : List Moment} {x y : Moment} (h : Trail start trail x) (hpart : Part x y) :
      Trail start (x :: trail) y

/-- The calls among moments that are not over. Each of them executes what it calls, since a call
comes to nothing else. -/
def callsIn (trail : List Moment) : Nat := trail.countP fun x => x.task.isCall

namespace Run

theorem depth_lt_of_checkCall (h : checkCall callee count paren m = .done () m') :
    m.depth < callLimit := by
  unfold checkCall at h
  split at h
  · cases h
  · split at h
    · cases h
    · split at h
      · cases h
      · rename_i hdepth
        exact Nat.not_le.mp hdepth

theorem checkCall_eq_done (harity : callee.arity? = some count) (hdepth : m.depth < callLimit) :
    checkCall callee count paren m = .done () m := by
  simp [checkCall, harity, Nat.not_le.mpr hdepth]

theorem checkCall_eq_notCallable_iff :
    checkCall callee count paren m = .failed (.runtime paren .notCallable) m ↔
      callee.arity? = none := by
  unfold checkCall
  cases callee.arity? with
  | none => simp [failAt, fail]
  | some arity =>
      dsimp only
      split
      · simp [failAt, fail]
      · split <;> simp [failAt, fail]

/-- The number of arguments is only looked at if the value can be called. -/
theorem checkCall_eq_wrongArgumentCount_iff {expected got : Nat} :
    checkCall callee count paren m =
        .failed (.runtime paren (.wrongArgumentCount expected got)) m ↔
      callee.arity? = some expected ∧ got = count ∧ count ≠ expected := by
  unfold checkCall
  cases callee.arity? with
  | none => simp [failAt, fail]
  | some arity =>
      dsimp only
      split
      · rename_i hcount
        simp only [failAt, fail, Ending.failed.injEq, Diagnostic.runtime.injEq,
          RuntimeFault.wrongArgumentCount.injEq, and_true, true_and, Option.some.injEq]
        constructor
        · rintro ⟨rfl, rfl⟩
          exact ⟨rfl, rfl, hcount⟩
        · rintro ⟨rfl, rfl, -⟩
          exact ⟨rfl, rfl⟩
      · rename_i hcount
        obtain rfl := Decidable.not_not.mp hcount
        split <;> simp +contextual [failAt, fail]

/-- The number of calls in progress is only looked at if all else is right. -/
theorem checkCall_eq_stackOverflow_iff :
    checkCall callee count paren m = .failed (.runtime paren .stackOverflow) m ↔
      callee.arity? = some count ∧ callLimit ≤ m.depth := by
  unfold checkCall
  cases callee.arity? with
  | none => simp [failAt, fail]
  | some arity =>
      dsimp only
      split
      · rename_i hcount
        simp [failAt, fail, Ne.symm hcount]
      · rename_i hcount
        obtain rfl := Decidable.not_not.mp hcount
        split
        · rename_i hdepth
          simp [failAt, fail, hdepth]
        · rename_i hdepth
          simp [hdepth]

end Run

/-- A part of a moment begins with one call more in progress if the moment is a call, and with as
many otherwise. -/
theorem Part.depth_eq (h : Part x y) :
    y.machine.depth = x.machine.depth + x.task.isCall.toNat := by
  cases h with
  | right h | undecided h | assign h | arguments h | method h | held h | othersOf h
  | consequent h | alternative h | loopBody h => exact ((allResume _).evaluate _ |>.of_done h).depth
  | others h => exact ((allResume _).execute _ |>.of_done h).depth
  | call h hs =>
      have hcallee := (allResume _).evaluate _ |>.of_done h
      exact (hcallee.trans ((allResume _).evaluateAll _ |>.of_done hs)).depth
  | loopAgain h hv hs =>
      have hcondition := (allResume _).evaluate _ |>.of_done h
      exact (hcondition.trans ((allResume _).execute _ |>.of_done hs)).depth
  | _ => rfl

theorem Part.depth_le (h : Part x y) (hx : x.machine.depth ≤ callLimit) :
    y.machine.depth ≤ callLimit := by
  have heq := h.depth_eq
  cases h with
  | invoke hcheck => exact depth_lt_of_checkCall hcheck
  | _ => exact heq ▸ hx

namespace Trail

/-- The count of the machine has grown by the calls that have begun and are not over. -/
theorem depth_eq (h : Trail start trail x) :
    x.machine.depth = start.machine.depth + callsIn trail := by
  induction h with
  | start => rfl
  | @part trail x y _ hpart ih =>
      rw [hpart.depth_eq, ih, callsIn, callsIn, List.countP_cons, Nat.add_assoc]
      cases x.task.isCall <;> rfl

theorem depth_le (h : Trail start trail x) (hstart : start.machine.depth ≤ callLimit) :
    x.machine.depth ≤ callLimit := by
  induction h with
  | start => exact hstart
  | part _ hpart ih => exact hpart.depth_le ih

end Trail

/-- The moment fails by itself: it comes to nothing and leaves its machine as it was. -/
def Moment.Refuses (x : Moment) (fault : Diagnostic) : Prop :=
  x.ending = .failed fault x.machine ∧ ∀ y, ¬Part x y

section

variable {n : Nat} {vs : List Value} {fault : Diagnostic}

theorem refuses_callValue_iff :
    Moment.Refuses ⟨n + 1, .callValue callee paren vs, m⟩ fault ↔
      checkCall callee vs.length paren m = .failed fault m := by
  constructor
  · rintro ⟨hending, hparts⟩
    cases hcheck : checkCall callee vs.length paren m with
    | done _ m' =>
        obtain ⟨-, rfl⟩ := arity?_of_checkCall hcheck
        exact absurd (.invoke hcheck) (hparts _)
    | failed other m' =>
        obtain rfl := machine_of_checkCall hcheck
        rw [Moment.ending, Ending.map_eq_failed_iff, callValue, bind_apply, hcheck] at hending
        cases hending
        rfl
    | unfinished =>
        rw [Moment.ending, callValue, bind_apply, hcheck] at hending
        cases hending
  · intro hcheck
    constructor
    · rw [Moment.ending, callValue, bind_apply, hcheck]
      rfl
    · intro y hpart
      cases hpart with
      | invoke h =>
          rw [h] at hcheck
          cases hcheck

/-- The machine with one call less in progress. -/
def Machine.endCall (m : Machine) : Machine := { m with depth := m.depth - 1 }

/-- A call that is past its checks ends as what it calls, which runs with one call more in progress.
-/
theorem Part.ending_of_isCall (h : Part x y) (hx : x.task.isCall) :
    x.ending = y.ending.leaving Machine.endCall := by
  cases h with
  | @invoke n m callee paren vs hcheck =>
      rw [Moment.ending, callValue, bind_of_done hcheck, counted_eq, Moment.ending,
        Machine.countCall]
      cases Lox.invoke n callee vs { m with depth := m.depth + 1 } <;> rfl
  | _ => cases hx

theorem Part.ending_of_refuses {c : Moment} (hc : Part c ⟨n, .callValue callee paren vs, m⟩)
    (h : Moment.Refuses ⟨n, .callValue callee paren vs, m⟩ fault) :
    c.ending = .failed fault m := by
  cases hc with
  | call hcallee hargs =>
      have hfailed := Ending.map_eq_failed_iff.mp h.1
      rw [Moment.ending, evaluate, bind_of_done hcallee, bind_of_done hargs, hfailed]
      rfl

end

theorem Trail.exists_of_within (h : Within start x) : ∃ trail, Trail start trail x := by
  induction h with
  | refl => exact ⟨[], .start⟩
  | @tail x y _ hpart ih =>
      obtain ⟨trail, hx⟩ := ih
      exact ⟨x :: trail, hx.part hpart⟩

/-- Only a call finds that there are too many. -/
theorem Moment.Raises.exists_call (h : x.Raises (.runtime paren .stackOverflow) m') :
    ∃ n callee vs m, x = ⟨n + 1, .callValue callee paren vs, m⟩ ∧
      callee.arity? = some vs.length ∧ callLimit ≤ m.depth := by
  cases h with
  | @check n m callee _ vs h =>
      obtain ⟨⟨⟩⟩ | ⟨_, ⟨⟩⟩ | ⟨⟨⟩⟩ := failed_checkCall h
      obtain rfl := machine_of_checkCall h
      exact ⟨n, callee, vs, _, rfl, checkCall_eq_stackOverflow_iff.mp h⟩
  | unary _ h =>
      obtain ⟨f, hf, hfault⟩ := failed_ofExcept h
      cases hfault
      exact absurd (Operator.isOperational_of_unary hf) (by simp [RuntimeFault.isOperational])
  | binary _ _ h =>
      obtain ⟨f, hf, hfault⟩ := failed_ofExcept h
      cases hfault
      exact absurd (Operator.isOperational_of_binary hf) (by simp [RuntimeFault.isOperational])
  | property _ h => obtain ⟨⟨⟩⟩ | ⟨⟨⟩⟩ := failed_getProperty h
  | holder _ h => cases h
  | lookUp h =>
      unfold Run.lookUp at h
      dsimp only at h
      split at h <;> cases h
  | assign h =>
      unfold Run.assign at h
      dsimp only at h
      split at h <;> cases h
  | print _ h => cases failed_writeAll h

namespace Session

variable {s : Session} {step : Step}

theorem AtRest.depth_start (h : s.AtRest) (hstart : s.start? step = some start) :
    start.machine.depth = 0 := by
  cases step with
  | run fuel source =>
      obtain ⟨⟨program, s'⟩, hunit, rfl⟩ := Option.map_eq_some_iff.mp hstart
      obtain ⟨hops, hmachine⟩ := machine_of_unit? hunit
      dsimp only
      rw [hmachine]
      exact h.depth
  | evaluate fuel source =>
      obtain ⟨e, -, rfl⟩ := Option.map_eq_some_iff.mp hstart
      exact h.depth
  | writeTo sink => cases hstart

/-- At every moment of every step of a session the machine counts the calls that are in progress,
which are never more than `callLimit`. The count is the same when the moment is over. A call is
refused if its callee cannot be called, or else if the number of arguments is wrong, or else exactly
if `callLimit` calls are in progress. A call that is refused executes nothing, and its expression
fails on the machine that its callee and its arguments have left. -/
theorem calls_counted (clock : Nat → Float) (steps : List Step)
    (hstart : ((new clock).after steps).start? step = some start) (hx : Trail start trail x) :
    x.machine.depth = callsIn trail ∧ callsIn trail ≤ callLimit ∧
      (∀ m, x.Left m → m.depth = callsIn trail) ∧
      ∀ n callee paren vs m, x = ⟨n + 1, .callValue callee paren vs, m⟩ →
        (x.Refuses (.runtime paren .notCallable) ↔
          callee.typeName ≠ "function" ∧ callee.typeName ≠ "class") ∧
        (∀ expected got, x.Refuses (.runtime paren (.wrongArgumentCount expected got)) ↔
          callee.arity? = some expected ∧ got = vs.length ∧ vs.length ≠ expected) ∧
        (callee.arity? = some vs.length →
          (x.Refuses (.runtime paren .stackOverflow) ↔ callsIn trail = callLimit) ∧
          (callsIn trail ≠ callLimit → Part x ⟨n, .invoke callee vs, m.countCall⟩)) ∧
        ∀ fault, x.Refuses fault → ∀ c, Part c x → c.ending = .failed fault m := by
  have hrest := ((atRest_new clock).after steps).depth_start hstart
  have hdepth : x.machine.depth = callsIn trail := by
    rw [hx.depth_eq, hrest, Nat.zero_add]
  have hle : callsIn trail ≤ callLimit :=
    hdepth ▸ hx.depth_le (hrest ▸ Nat.zero_le callLimit)
  refine ⟨hdepth, hle, fun m hleft => hleft.resumes.depth.trans hdepth, ?_⟩
  rintro n callee paren vs m rfl
  have hdepth : m.depth = callsIn trail := hdepth
  refine ⟨?_, fun expected got => ?_, fun harity => ⟨?_, fun hcalls => ?_⟩, fun fault h c hc => ?_⟩
  · rw [refuses_callValue_iff, checkCall_eq_notCallable_iff, Value.arity?_eq_none_iff]
  · rw [refuses_callValue_iff, checkCall_eq_wrongArgumentCount_iff]
  · rw [refuses_callValue_iff, checkCall_eq_stackOverflow_iff, hdepth]
    constructor
    · rintro ⟨-, hlimit⟩
      exact Nat.le_antisymm hle hlimit
    · intro hlimit
      exact ⟨harity, Nat.le_of_eq hlimit.symm⟩
  · refine .invoke (checkCall_eq_done harity ?_)
    rw [hdepth]
    exact Nat.lt_of_le_of_ne hle hcalls
  · exact hc.ending_of_refuses h

/-- A function that calls itself with an argument too many is refused while one call is in
progress. -/
theorem calls_counted_of_nested :
    ∃ start trail n callee paren vs m,
      ((new fun _ => 0).after []).start? (.run 20 "\x7bfun f()\x7bf(nil);\x7df();\x7d") =
        some start ∧
      Trail start trail ⟨n + 1, .callValue callee paren vs, m⟩ ∧ m.depth = 1 ∧
      Moment.Refuses ⟨n + 1, .callValue callee paren vs, m⟩
        (.runtime paren (.wrongArgumentCount 0 1)) := by
  let f : Token := ⟨.identifier, "f", 1⟩
  let paren : Token := ⟨.symbol .rightParen, ")", 1⟩
  let inner : Stmt NodeId := .expression (.call (.var 0 f) paren [.literal .nil])
  let outer : Stmt NodeId := .expression (.call (.var 1 f) paren [])
  let program : List (Stmt NodeId) := [.block [.function ⟨f, [], [inner]⟩, outer]]
  let hops : Hops := ((∅ : Hops).insert 0 1).insert 1 0
  let s' : Session := ⟨{ Machine.new (fun _ => 0) with hops }, 2⟩
  have hunit : (Session.new fun _ => 0).unit? "\x7bfun f()\x7bf(nil);\x7df();\x7d" =
      some (program, s') := by
    refine unit?_eq_some_iff.mpr ⟨[.block [.function ⟨f, [],
        [.expression (.call (.var () f) paren [.literal .nil])]⟩,
      .expression (.call (.var () f) paren [])]], ?_, rfl, rfl, rfl⟩
    cbv
  have hstart : ((new fun _ => 0).after []).start? (.run 20 "\x7bfun f()\x7bf(nil);\x7df();\x7d") =
      some ⟨20, .executeAll program, s'.machine⟩ := by
    change ((new fun _ => 0).unit? _).map _ = _
    rw [hunit]
    rfl
  have hblock : Trail ⟨20, .executeAll program, s'.machine⟩ _ _ :=
    (Trail.start.part .first).part .block
  have hcalled := (((hblock.part (.others rfl)).part .first).part .expression).part (.call rfl rfl)
  have hbody := ((hcalled.part (.invoke rfl)).part .function).part .body
  have hrefused := ((hbody.part .first).part .expression).part (.call rfl rfl)
  have hcounted := calls_counted (fun _ => 0) [] hstart hrefused
  refine ⟨_, _, _, _, _, _, _, hstart, hrefused, hcounted.1, ?_⟩
  exact ((hcounted.2.2.2 _ _ _ _ _ rfl).2.1 0 1).mpr ⟨rfl, rfl, by decide⟩

/-- A step that ends because there are too many calls comes to a call that is right in all else
while `callLimit` calls are in progress. -/
theorem exists_trail_of_stackOverflow (clock : Nat → Float) (steps : List Step)
    (h : (((new clock).after steps).take step).1 = .runtimeError (.runtime paren .stackOverflow)) :
    ∃ start trail n callee vs m, ((new clock).after steps).start? step = some start ∧
      Trail start trail ⟨n + 1, .callValue callee paren vs, m⟩ ∧
      callee.arity? = some vs.length ∧ callsIn trail = callLimit := by
  cases hstart : ((new clock).after steps).start? step with
  | none => exact absurd h ((heap_of_start?_eq_none hstart).2 _)
  | some start =>
      obtain ⟨m', hending⟩ := exists_failed_of_take hstart h (by simp)
      obtain ⟨x, m₁, hwithin, -, hraises, -⟩ := Moment.exists_raises hending
      obtain ⟨n, callee, vs, m, rfl, harity, hlimit⟩ := hraises.exists_call
      obtain ⟨trail, htrail⟩ := Trail.exists_of_within hwithin
      have hrest := ((atRest_new clock).after steps).depth_start hstart
      have hdepth : m.depth = callsIn trail := by
        rw [htrail.depth_eq, hrest, Nat.zero_add]
      have hle : m.depth ≤ callLimit := htrail.depth_le (hrest ▸ Nat.zero_le callLimit)
      exact ⟨start, trail, n, callee, vs, m, rfl, htrail, harity,
        hdepth ▸ Nat.le_antisymm hle hlimit⟩

end Session

end Lox
