import Lox.Proofs.Printing.Futures
import Lox.Proofs.Printing.Units

/-!
To evaluate an expression is to run a statement that prints it.

A session writes the same and answers with the same fault either way, and what it is asked later
does not tell which way it was.
-/

namespace Lox.Session

variable {s s' : Session} {source : String} {n fuel : Nat}

theorem exists_of_evaluate {reply : Answer} (h : s.evaluate n source = (reply, s'))
    (hreply : ∀ faults, reply ≠ .staticErrors faults) :
    ∃ e, expression? source = some e ∧
      { s with nextNode := (e.numbered s.nextNode).2 }.conclude .value
        (Lox.evaluate n (e.numbered s.nextNode).1 s.machine) = (reply, s') := by
  cases he : expression? source with
  | none =>
      obtain ⟨faults, hrejected⟩ := evaluate_of_expression?_eq_none (s := s) he n
      rw [hrejected] at h
      exact absurd (congrArg Prod.fst h).symm (hreply faults)
  | some e => exact ⟨e, rfl, (evaluate_of_expression? he n).symm.trans h⟩

theorem conclude_eq_value_iff {e : Ending Value} {v : Value} :
    s.conclude .value e = (.value v, s') ↔
      ∃ m, e = .done v m ∧ s' = { s with machine := m } := by
  cases e with
  | done w m => grind [conclude]
  | failed fault m => simp [conclude]
  | unfinished => simp [conclude]

theorem conclude_eq_runtimeError_iff {e : Ending Value} {fault : Diagnostic} :
    s.conclude .value e = (.runtimeError fault, s') ↔
      ∃ m, e = .failed fault m ∧ s' = { s with machine := m } := by
  cases e with
  | done v m => simp [conclude]
  | failed other m => grind [conclude]
  | unfinished => simp [conclude]

theorem AtRest.evaluated (h : s.AtRest) (hsink : s.machine.sink.Unfailing)
    {e : Expr NodeId} {m : Machine} (hm : (Lox.evaluate n e s.machine).machine? = some m) :
    m.atRest = m ∧ ∃ written, m.sink = s.machine.sink.append written :=
  ⟨(((allResume n).evaluate e).of_machine? hm).atRest_eq h.current h.depth,
    ((allPour n).evaluate e).exists_sink hsink hm⟩

theorem AtRest.run_print_of_value (hrest : s.AtRest) (hsink : s.machine.sink.Unfailing)
    (hthis : ∀ t ∈ Scan.tokens source, t.kind ≠ .keyword .this_) (hfuel : n + 2 ≤ fuel) {v : Value}
    (h : s.evaluate n source = (.value v, s')) :
    ∃ written, s'.machine.sink = s.machine.sink.append written ∧
      s.run fuel ("print " ++ source ++ "\n;") =
        (.completed, s'.writingTo (s'.machine.sink.append (v.text ++ "\n"))) := by
  obtain ⟨e, he, hconclude⟩ := exists_of_evaluate h (by simp)
  obtain ⟨m, hrun, rfl⟩ := conclude_eq_value_iff.mp hconclude
  obtain ⟨hm, written, hwritten⟩ := hrest.evaluated hsink (by rw [hrun]; rfl)
  have hm' : m.sink.Unfailing := hwritten ▸ hsink.append written
  refine ⟨written, hwritten, ?_⟩
  rw [run_of_unit? (unit?_print he hthis), interpret_print_of_done hfuel hrun hm' hm]
  rfl

theorem AtRest.run_print_of_fault (hrest : s.AtRest) (hsink : s.machine.sink.Unfailing)
    (hthis : ∀ t ∈ Scan.tokens source, t.kind ≠ .keyword .this_) (hfuel : n + 2 ≤ fuel)
    {fault : Diagnostic} (h : s.evaluate n source = (.runtimeError fault, s')) :
    ∃ written, s'.machine.sink = s.machine.sink.append written ∧
      s.run fuel ("print " ++ source ++ "\n;") = (.runtimeError fault, s') := by
  obtain ⟨e, he, hconclude⟩ := exists_of_evaluate h (by simp)
  obtain ⟨m, hrun, rfl⟩ := conclude_eq_runtimeError_iff.mp hconclude
  obtain ⟨hm, written, hwritten⟩ := hrest.evaluated hsink (by rw [hrun]; rfl)
  have hm' : m.sink.Unfailing := hwritten ▸ hsink.append written
  refine ⟨written, hwritten, ?_⟩
  rw [run_of_unit? (unit?_print he hthis), interpret_print_of_failed hfuel hrun hm' hm]
  rfl

/-- An expression that does not speak of the receiver may be evaluated, or be run as a statement
that prints it. If it has a value, the run is completed and writes what the evaluation writes, and
then the value on a line of its own. If it ends with a fault, the run ends with the same one and
writes the same. Whatever the session is asked later, it goes on as after the evaluation. -/
theorem run_print (clock : Nat → Float) {steps : List Step}
    (hsinks : ∀ sink, .writeTo sink ∈ steps → sink.Unfailing) {source : String}
    (hthis : ∀ t ∈ Scan.tokens source, t.kind ≠ .keyword .this_) {n fuel : Nat}
    (hfuel : n + 2 ≤ fuel) :
    let s := (new clock).after steps
    (∀ v s₁, s.evaluate n source = (.value v, s₁) →
        ∃ written s₂, s₁.output = s.output ++ written ∧
          s.run fuel ("print " ++ source ++ "\n;") = (.completed, s₂) ∧
          s₂.output = s.output ++ written ++ v.text ++ "\n" ∧ s₁.SameFuture s₂) ∧
      ∀ fault s₁, s.evaluate n source = (.runtimeError fault, s₁) →
        ∃ written s₂, s₁.output = s.output ++ written ∧
          s.run fuel ("print " ++ source ++ "\n;") = (.runtimeError fault, s₂) ∧
          s₂.output = s.output ++ written ∧ s₁.SameFuture s₂ := by
  intro s
  have hrest : s.AtRest := (atRest_new clock).after steps
  have hsink : s.machine.sink.Unfailing :=
    unfailing_after (s := new clock) Sink.unfailing_endless hsinks
  constructor
  · intro v s₁ hvalue
    obtain ⟨written, hwritten, hrun⟩ := hrest.run_print_of_value hsink hthis hfuel hvalue
    have hsink₁ : s₁.machine.sink.Unfailing := hwritten ▸ hsink.append written
    have houtput : s₁.output = s.output ++ written := congrArg Sink.text hwritten
    refine ⟨written, _, houtput, hrun, ?_,
      sameFuture_writingTo (s := s₁) hsink₁ (hsink₁.append _)⟩
    rw [← houtput, String.append_assoc]
    rfl
  · intro fault s₁ hfault
    obtain ⟨written, hwritten, hrun⟩ := hrest.run_print_of_fault hsink hthis hfuel hfault
    have hsink₁ : s₁.machine.sink.Unfailing := hwritten ▸ hsink.append written
    have houtput : s₁.output = s.output ++ written := congrArg Sink.text hwritten
    exact ⟨written, s₁, houtput, hrun, houtput, sameFuture_writingTo (s := s₁) hsink₁ hsink₁⟩

/-- A call that prints before it returns, and one the value of which cannot be negated. -/
theorem run_print_of_call :
    let s := (new fun _ => 0).after
      [.writeTo .endless, .run 20 "fun f() \x7b print true; return nil; \x7d"]
    (∃ s₁ s₂, s.evaluate 20 "f() // nil" = (.value .nil, s₁) ∧
        s.run 22 ("print " ++ "f() // nil" ++ "\n;") = (.completed, s₂) ∧
        s₁.output = "true\n" ∧ s₂.output = "true\nnil\n" ∧ s₁.SameFuture s₂) ∧
      ∃ s₁ s₂, s.evaluate 20 "-f()" =
          (.runtimeError (.runtime ⟨.symbol .minus, "-", 1⟩ .operandNotNumber), s₁) ∧
        s.run 22 ("print " ++ "-f()" ++ "\n;") =
          (.runtimeError (.runtime ⟨.symbol .minus, "-", 1⟩ .operandNotNumber), s₂) ∧
        s₁.output = "true\n" ∧ s₂.output = "true\n" ∧ s₁.SameFuture s₂ := by
  intro s
  let f : Token := ⟨.identifier, "f", 1⟩
  let minus : Token := ⟨.symbol .minus, "-", 1⟩
  let paren : Token := ⟨.symbol .rightParen, ")", 1⟩
  let program : List (Stmt NodeId) := [.function ⟨f, [], [.print (.literal (.boolean true)),
    .ret ⟨.keyword .return_, "return", 1⟩ (some (.literal .nil))]⟩]
  let s' : Session :=
    ⟨{ Machine.new (fun _ => 0) with hops := (∅ : Hops).merge ∅, sink := .endless }, 0⟩
  have hunit : ((new fun _ => 0).writingTo .endless).unit?
      "fun f() \x7b print true; return nil; \x7d" = some (program, s') := by
    refine unit?_eq_some_iff.mpr ⟨[.function ⟨f, [], [.print (.literal (.boolean true)),
      .ret ⟨.keyword .return_, "return", 1⟩ (some (.literal .nil))]⟩], ?_, rfl, rfl, rfl⟩
    cbv
  have hs : s = (s'.conclude (fun _ => .completed) (Machine.interpret 20 program s'.machine)).2 :=
    congrArg Prod.snd (run_of_unit? hunit 20)
  have hsinks : ∀ sink, .writeTo sink ∈
      [.writeTo .endless, Step.run 20 "fun f() \x7b print true; return nil; \x7d"] →
      sink.Unfailing := by simp [Sink.unfailing_endless]
  constructor
  · have htokens : Scan.tokens "f() // nil" =
        [f, ⟨.symbol .leftParen, "(", 1⟩, paren, .endOfInput 1] := by cbv
    have hcall : expression? "f() // nil" = some (.call (.var () f) paren []) := by cbv
    have hvalue : (s.evaluate 20 "f() // nil").1 = .value .nil := by
      rw [evaluate_of_expression? hcall, hs]
      with_unfolding_all rfl
    have houtput : (s.evaluate 20 "f() // nil").2.output = "true\n" := by
      rw [evaluate_of_expression? hcall, hs]
      unfold s' program f paren
      decide +kernel
    obtain ⟨written, s₂, hwritten, hrun, hprinted, hfuture⟩ :=
      (run_print (fun _ => 0) hsinks (by simp [htokens, f, paren, Token.endOfInput])
        (Nat.le_refl 22)).1 .nil (s.evaluate 20 "f() // nil").2 (Prod.ext hvalue rfl)
    rw [← hwritten, houtput] at hprinted
    exact ⟨_, s₂, Prod.ext hvalue rfl, hrun, houtput, hprinted, hfuture⟩
  · have htokens : Scan.tokens "-f()" =
        [minus, f, ⟨.symbol .leftParen, "(", 1⟩, paren, .endOfInput 1] := by cbv
    have hnegated : expression? "-f()" = some (.unary minus (.call (.var () f) paren [])) := by cbv
    have hfault : (s.evaluate 20 "-f()").1 = .runtimeError (.runtime minus .operandNotNumber) := by
      rw [evaluate_of_expression? hnegated, hs]
      with_unfolding_all rfl
    have houtput : (s.evaluate 20 "-f()").2.output = "true\n" := by
      rw [evaluate_of_expression? hnegated, hs]
      unfold s' program f paren minus
      decide +kernel
    obtain ⟨written, s₂, hwritten, hrun, hprinted, hfuture⟩ :=
      (run_print (fun _ => 0) hsinks (by simp [htokens, minus, f, paren, Token.endOfInput])
        (Nat.le_refl 22)).2 _ (s.evaluate 20 "-f()").2 (Prod.ext hfault rfl)
    rw [← hwritten, houtput] at hprinted
    exact ⟨_, s₂, Prod.ext hfault rfl, hrun, houtput, hprinted, hfuture⟩

end Lox.Session
