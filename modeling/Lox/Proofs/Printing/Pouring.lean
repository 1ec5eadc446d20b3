import Lox.Proofs.Running.Closed

/-!
A run does not look at what was written before it.

On sinks that never fail a run writes one and the same text after what each of them holds, and ends
in one and the same way.
-/

namespace Lox

/-- It takes whatever is written to it, and flushing it succeeds. -/
structure Sink.Unfailing (sink : Sink) : Prop where
  room : ∀ text, sink.room? text = none
  flushes : sink.flushes = true

namespace Sink

variable {sink : Sink}

theorem unfailing_endless : endless.Unfailing := ⟨fun _ => rfl, rfl⟩

theorem Unfailing.append (h : sink.Unfailing) (piece : String) : (sink.append piece).Unfailing :=
  ⟨h.room, h.flushes⟩

theorem Unfailing.accepts (h : sink.Unfailing) (piece : String) : sink.accepts piece := by
  rw [Sink.accepts, h.room]

@[simp] theorem append_empty (sink : Sink) : sink.append "" = sink := by
  simp [append]

@[simp] theorem append_append (sink : Sink) (piece more : String) :
    (sink.append piece).append more = sink.append (piece ++ more) := by
  simp [append, String.append_assoc]

end Sink

/-- The machine with another sink. -/
def Machine.writingTo (m : Machine) (sink : Sink) : Machine := { m with sink }

section

variable {α β : Type}

/-- The ending with another sink in the machine that is left. -/
def Ending.writingTo (sink : Sink) : Ending α → Ending α := leaving fun m => m.writingTo sink

namespace Run

variable {r : Run α}

/-- From each machine, the run writes one text and ends in one way, whatever the sink holds. -/
def Pours (r : Run α) : Prop :=
  ∀ m : Machine, ∃ (written : String) (ending : Ending α), ∀ sink : Sink, sink.Unfailing →
    r (m.writingTo sink) = ending.writingTo (sink.append written)

/-- The run neither looks at the sink nor changes it. -/
def Silent (r : Run α) : Prop := ∀ (m : Machine) sink, r (m.writingTo sink) = (r m).writingTo sink

theorem pours_of_silent (h : r.Silent) : r.Pours :=
  fun m => ⟨"", r m, fun sink _ => by rw [h, Sink.append_empty]⟩

theorem Pours.bind {k : α → Run β} (h : r.Pours) (hk : ∀ a, (k a).Pours) : (r >>= k).Pours := by
  intro m
  obtain ⟨written, ending, hfirst⟩ := h m
  cases ending with
  | done a m₁ =>
      obtain ⟨more, ending', hsecond⟩ := hk a m₁
      refine ⟨written ++ more, ending', fun sink hsink => ?_⟩
      rw [bind_apply, hfirst sink hsink]
      exact (hsecond _ (hsink.append written)).trans (by rw [Sink.append_append])
  | failed fault m₁ =>
      refine ⟨written, .failed fault m₁, fun sink hsink => ?_⟩
      rw [bind_apply, hfirst sink hsink]
      rfl
  | unfinished =>
      refine ⟨written, .unfinished, fun sink hsink => ?_⟩
      rw [bind_apply, hfirst sink hsink]
      rfl

theorem Pours.around {r' : Run α} (h : r.Pours) (enter : Machine → Machine)
    (leave : Machine → Machine → Machine) (hr : ∀ m, r' m = (r (enter m)).leaving (leave m))
    (henter : ∀ (m : Machine) sink, enter (m.writingTo sink) = (enter m).writingTo sink)
    (hleave : ∀ (m m' : Machine) sink sink',
      leave (m.writingTo sink) (m'.writingTo sink') = (leave m m').writingTo sink') :
    r'.Pours := by
  intro m
  obtain ⟨written, ending, hrun⟩ := h (enter m)
  refine ⟨written, ending.leaving (leave m), fun sink hsink => ?_⟩
  rw [hr, henter, hrun sink hsink]
  cases ending <;> simp [Ending.writingTo, Ending.leaving, hleave]

theorem Pours.inScope (h : r.Pours) (s : ScopeId) : (inScope s r).Pours :=
  h.around _ _ (inScope_eq s r) (fun _ _ => rfl) fun _ _ _ _ => rfl

theorem Pours.counted (h : r.Pours) : (counted r).Pours :=
  h.around _ (fun _ m' => { m' with depth := m'.depth - 1 }) (counted_eq r) (fun _ _ => rfl)
    fun _ _ _ _ => rfl

theorem lookUp_silent (node : NodeId) (name : Token) : (lookUp node name).Silent := by
  intro m sink
  unfold lookUp
  dsimp only [Machine.writingTo]
  split <;> rfl

theorem assign_silent (node : NodeId) (name : Token) (value : Value) :
    (assign node name value).Silent := by
  intro m sink
  unfold assign
  dsimp only [Machine.writingTo]
  split <;> rfl

theorem write_of_accepts {m : Machine} {piece : String} (h : m.sink.accepts piece) :
    write piece m = .done () (m.writingTo (m.sink.append piece)) := by
  unfold write
  dsimp only
  rw [if_pos h, Sink.takes_of_accepts h]
  rfl

theorem write_of_not_accepts {m : Machine} {piece : String} (h : ¬m.sink.accepts piece) :
    write piece m =
      .failed (.output .full) (m.writingTo (m.sink.append (m.sink.takes piece))) :=
  if_neg h

theorem write_of_unfailing {m : Machine} (h : m.sink.Unfailing) (piece : String) :
    write piece m = .done () (m.writingTo (m.sink.append piece)) :=
  write_of_accepts (h.accepts piece)

theorem write_pours (piece : String) : (write piece).Pours :=
  fun m => ⟨piece, .done () m, fun sink hsink =>
    write_of_unfailing (m := m.writingTo sink) hsink piece⟩

theorem writeAll_of_unfailing {m : Machine} (h : m.sink.Unfailing) (pieces : List String) :
    writeAll pieces m = .done () (m.writingTo (m.sink.append (String.join pieces))) := by
  induction pieces generalizing m with
  | nil =>
      rw [String.join_nil, Sink.append_empty]
      rfl
  | cons piece pieces ih =>
      rw [writeAll, bind_apply, write_of_unfailing h]
      dsimp only
      rw [ih (h.append piece), String.join_cons, ← Sink.append_append]
      rfl

theorem print_of_unfailing {m : Machine} (h : m.sink.Unfailing) (value : Value) :
    print value m = .done () (m.writingTo (m.sink.append (value.text ++ "\n"))) := by
  rw [print, writeAll_of_unfailing h, String.join_append, Value.join_pieces]
  rfl

theorem checkCall_silent (callee : Value) (count : Nat) (paren : Token) :
    (checkCall callee count paren).Silent := by
  intro m sink
  have hdepth : (m.writingTo sink).depth = m.depth := rfl
  unfold checkCall
  split
  · rfl
  · split
    · rfl
    · rw [hdepth]
      split <;> rfl

theorem result_silent (routine : Routine) (flow : Flow) : (result routine flow).Silent := by
  intro m sink
  unfold result
  dsimp only [Machine.writingTo]
  split
  · rfl
  · cases flow <;> rfl

theorem closed_of_silent {P : ∀ {α : Type}, Run α → Prop}
    (silent : ∀ {α : Type} {r : Run α}, r.Silent → P r)
    (bind : ∀ {α β : Type} {r : Run α} {k : α → Run β}, P r → (∀ a, P (k a)) → P (r >>= k))
    (inScope : ∀ {α : Type} {r : Run α} (scope : ScopeId), P r → P (inScope scope r))
    (counted : ∀ {α : Type} {r : Run α}, P r → P (counted r))
    (write : ∀ piece, P (write piece)) : Closed P where
  pure _ := silent fun _ _ => rfl
  fail _ := silent fun _ _ => rfl
  unfinished := silent fun _ _ => rfl
  bind := bind
  inScope := inScope
  counted := counted
  newScope _ := silent fun _ _ => rfl
  newInnerScope := silent fun _ _ => rfl
  define _ _ _ := silent fun _ _ => rfl
  defineHere _ _ := silent fun _ _ => rfl
  lookUp node name := silent (lookUp_silent node name)
  assign node name value := silent (assign_silent node name value)
  newIdentity := silent fun _ _ => rfl
  newInstance := silent fun _ _ => rfl
  field? _ _ := silent fun _ _ => rfl
  setField _ _ _ := silent fun _ _ => rfl
  write := write
  readClock := silent fun _ _ => rfl
  makeFunction _ := silent fun _ _ => rfl
  makeClass _ _ := silent fun _ _ => rfl
  checkCall callee count paren := silent (checkCall_silent callee count paren)
  result routine flow := silent (result_silent routine flow)

theorem pours_closed : Closed fun r => r.Pours :=
  closed_of_silent pours_of_silent Pours.bind (fun scope h => h.inScope scope) Pours.counted
    write_pours

end Run

end

/-- No run looks at what was written before it. -/
theorem allPour (n : Nat) : Run.Everywhere (fun r => r.Pours) n := Run.pours_closed.everywhere n

theorem Machine.interpret_pours (fuel : Nat) (program : List (Stmt NodeId)) :
    Run.Pours (Machine.interpret fuel program) := by
  intro m
  obtain ⟨written, ending, hrun⟩ := (allPour fuel).executeAll program m
  cases ending with
  | done flow m' =>
      refine ⟨written, .done () m'.atRest, fun sink hsink => ?_⟩
      rw [Machine.interpret, hrun sink hsink]
      exact if_pos hsink.flushes
  | failed fault m' =>
      refine ⟨written, .failed fault m'.atRest, fun sink hsink => ?_⟩
      rw [Machine.interpret, hrun sink hsink]
      exact if_pos hsink.flushes
  | unfinished =>
      refine ⟨written, .unfinished, fun sink hsink => ?_⟩
      rw [Machine.interpret, hrun sink hsink]
      rfl

end Lox
