import Lox.Proofs.Printing.Pouring
import Lox.Proofs.Running.Sessions

namespace Lox.Session

variable {s s' : Session} {source : String} {step : Step}

/-- The session answers in one way and writes one text, whatever its sink holds. -/
def Pours (s : Session) (act : Session → Answer × Session) : Prop :=
  ∃ (reply : Answer) (s' : Session) (written : String), ∀ sink : Sink, sink.Unfailing →
    act (s.writingTo sink) = (reply, s'.writingTo (sink.append written))

theorem pours_of_silent {act : Session → Answer × Session}
    (h : ∀ sink, act (s.writingTo sink) = ((act s).1, (act s).2.writingTo sink)) : s.Pours act :=
  ⟨(act s).1, (act s).2, "", fun sink _ => by rw [h, Sink.append_empty]⟩

theorem conclude_pours {α : Type} {r : Run α} (h : r.Pours) (s : Session) (answer : α → Answer) :
    s.Pours fun s => s.conclude answer (r s.machine) := by
  obtain ⟨written, ending, hrun⟩ := h s.machine
  have hrun : ∀ sink : Sink, sink.Unfailing →
      r (s.writingTo sink).machine = ending.writingTo (sink.append written) := hrun
  cases ending with
  | done v m =>
      refine ⟨answer v, { s with machine := m }, written, fun sink hsink => ?_⟩
      dsimp only
      rw [hrun sink hsink]
      rfl
  | failed fault m =>
      refine ⟨.runtimeError fault, { s with machine := m }, written, fun sink hsink => ?_⟩
      dsimp only
      rw [hrun sink hsink]
      rfl
  | unfinished =>
      refine ⟨.unfinished, s, "", fun sink hsink => ?_⟩
      dsimp only
      rw [hrun sink hsink, Sink.append_empty]
      rfl

theorem unit?_writingTo {program : List (Stmt NodeId)} (h : s.unit? source = some (program, s'))
    (sink : Sink) : (s.writingTo sink).unit? source = some (program, s'.writingTo sink) := by
  obtain ⟨tree, hread, rfl, hreports, rfl⟩ := unit?_eq_some_iff.mp h
  exact unit?_eq_some_iff.mpr ⟨tree, hread, rfl, hreports, rfl⟩

theorem run_pours (s : Session) (fuel : Nat) (source : String) :
    s.Pours fun s => s.run fuel source := by
  cases hunit : s.unit? source with
  | some unit =>
      obtain ⟨program, s'⟩ := unit
      obtain ⟨reply, s'', written, h⟩ :=
        conclude_pours (Machine.interpret_pours fuel program) s' fun _ => .completed
      refine ⟨reply, s'', written, fun sink hsink => ?_⟩
      exact (run_of_unit? (unit?_writingTo hunit sink) fuel).trans (h sink hsink)
  | none =>
      refine pours_of_silent fun sink => ?_
      unfold run
      dsimp only
      by_cases hread : (readProgram source).reports.isEmpty
      · have hresolved : (!((s.number (readProgram source).value).2.resolve
            (s.number (readProgram source).value).1).reports.isEmpty) = true := by
          simpa [unit?, hread] using hunit
        simp only [hread, Bool.not_true, Bool.false_eq_true, if_false]
        rw [if_pos hresolved]
        exact if_pos hresolved
      · simp only [hread, Bool.not_false, if_true]

theorem evaluate_pours (s : Session) (fuel : Nat) (source : String) :
    s.Pours fun s => s.evaluate fuel source := by
  cases he : expression? source with
  | some e =>
      obtain ⟨reply, s', written, h⟩ := conclude_pours ((allPour fuel).evaluate
        (e.numbered s.nextNode).1) { s with nextNode := (e.numbered s.nextNode).2 } .value
      refine ⟨reply, s', written, fun sink hsink => ?_⟩
      exact (evaluate_of_expression? he fuel).trans (h sink hsink)
  | none =>
      refine pours_of_silent fun sink => ?_
      unfold expression? at he
      unfold evaluate
      generalize readExpression source = read at he
      obtain ⟨value, reports⟩ := read
      cases value with
      | none => rfl
      | some e =>
          cases reports with
          | nil => cases he
          | cons => rfl

theorem take_pours (s : Session) (hstep : ∀ sink, step ≠ .writeTo sink) :
    s.Pours fun s => s.take step := by
  cases step with
  | run fuel source => exact run_pours s fuel source
  | evaluate fuel source => exact evaluate_pours s fuel source
  | writeTo sink => exact absurd rfl (hstep sink)

/-- After any steps, two sessions that differed in their sinks differ in these as before, or have
been given the same new one. -/
theorem after_writingTo (s : Session) (later : List Step) :
    ((∀ sink, Step.writeTo sink ∉ later) ∧ ∃ (s' : Session) (written : String),
        ∀ sink : Sink, sink.Unfailing →
          (s.writingTo sink).after later = s'.writingTo (sink.append written)) ∨
      (∃ sink, Step.writeTo sink ∈ later) ∧ ∃ s' : Session,
        ∀ sink : Sink, sink.Unfailing → (s.writingTo sink).after later = s' := by
  induction later generalizing s with
  | nil =>
      refine .inl ⟨fun sink => List.not_mem_nil, s, "", fun sink _ => ?_⟩
      rw [Sink.append_empty]
      rfl
  | cons step later ih =>
      -- from a new sink on the sessions are the same
      by_cases hstep : ∃ sink, step = .writeTo sink
      · obtain ⟨sink, rfl⟩ := hstep
        exact .inr ⟨⟨sink, List.mem_cons_self⟩, (s.writingTo sink).after later, fun _ _ => rfl⟩
      · rw [not_exists] at hstep
        obtain ⟨reply, s', written, htake⟩ := take_pours s hstep
        have hafter : ∀ sink : Sink, sink.Unfailing → (s.writingTo sink).after (step :: later) =
            (s'.writingTo (sink.append written)).after later := by
          intro sink hsink
          exact congrArg (fun taken => taken.2.after later) (htake sink hsink)
        rcases ih s' with ⟨hno, t, more, ht⟩ | ⟨⟨sink, hmem⟩, t, ht⟩
        · refine .inl ⟨fun sink hmem => ?_, t, written ++ more, fun sink hsink => ?_⟩
          · rcases List.mem_cons.mp hmem with heq | hmem
            · exact hstep sink heq.symm
            · exact hno sink hmem
          · rw [hafter sink hsink, ht _ (hsink.append written), Sink.append_append]
        · refine .inr ⟨⟨sink, List.mem_cons_of_mem _ hmem⟩, t, fun sink hsink => ?_⟩
          rw [hafter sink hsink, ht _ (hsink.append written)]

/-- Whatever both sessions are asked later, they answer alike and know the same globals. They write
the same as long as they keep their sinks, and hold the same once they have a new one. -/
structure SameFuture (s s' : Session) : Prop where
  answer : ∀ later step, ((s'.after later).take step).1 = ((s.after later).take step).1
  globalNames : ∀ later, (s'.after later).globalNames = (s.after later).globalNames
  written : ∀ later, (∀ sink, .writeTo sink ∉ later) → ∃ written,
    (s.after later).output = s.output ++ written ∧ (s'.after later).output = s'.output ++ written
  output : ∀ later sink, .writeTo sink ∈ later → (s'.after later).output = (s.after later).output

theorem sameFuture_writingTo {sink sink' : Sink} (h : sink.Unfailing) (h' : sink'.Unfailing) :
    (s.writingTo sink).SameFuture (s.writingTo sink') := by
  constructor
  · intro later step
    rcases after_writingTo s later with ⟨-, t, written, ht⟩ | ⟨-, t, ht⟩
    · rw [ht sink h, ht sink' h']
      by_cases hstep : ∃ sink, step = .writeTo sink
      · obtain ⟨sink, rfl⟩ := hstep
        rfl
      · obtain ⟨_, _, _, htake⟩ := take_pours t (not_exists.mp hstep)
        exact (congrArg Prod.fst (htake _ (h'.append written))).trans
          (congrArg Prod.fst (htake _ (h.append written))).symm
    · rw [ht sink h, ht sink' h']
  · intro later
    rcases after_writingTo s later with ⟨-, t, written, ht⟩ | ⟨-, t, ht⟩
    · rw [ht sink h, ht sink' h']
      rfl
    · rw [ht sink h, ht sink' h']
  · intro later hno
    rcases after_writingTo s later with ⟨-, t, written, ht⟩ | ⟨⟨k, hmem⟩, -⟩
    · exact ⟨written, by rw [ht sink h]; rfl, by rw [ht sink' h']; rfl⟩
    · exact absurd hmem (hno k)
  · intro later k hmem
    rcases after_writingTo s later with ⟨hno, -⟩ | ⟨-, t, ht⟩
    · exact absurd hmem (hno k)
    · rw [ht sink h, ht sink' h']

theorem unfailing_take (hsink : s.machine.sink.Unfailing)
    (hstep : ∀ sink, step = .writeTo sink → sink.Unfailing) :
    (s.take step).2.machine.sink.Unfailing := by
  by_cases hwrites : ∃ sink, step = .writeTo sink
  · obtain ⟨sink, rfl⟩ := hwrites
    exact hstep sink rfl
  · obtain ⟨reply, s', written, htake⟩ := take_pours s (not_exists.mp hwrites)
    have htaken : s.take step = (reply, s'.writingTo (s.machine.sink.append written)) :=
      htake s.machine.sink hsink
    rw [htaken]
    exact hsink.append written

theorem unfailing_after {steps : List Step} (hsink : s.machine.sink.Unfailing)
    (hsinks : ∀ sink, .writeTo sink ∈ steps → sink.Unfailing) :
    (s.after steps).machine.sink.Unfailing := by
  induction steps generalizing s with
  | nil => exact hsink
  | cons step steps ih =>
      refine ih (unfailing_take hsink fun sink h => hsinks sink ?_) fun sink h =>
        hsinks sink (List.mem_cons_of_mem _ h)
      exact h ▸ List.mem_cons_self

end Lox.Session
