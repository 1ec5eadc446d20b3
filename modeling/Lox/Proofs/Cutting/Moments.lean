import Lox.Proofs.Cutting.Runs

namespace Lox

open Run

variable {cut full : Sink} {m m' m₁ : Machine} {n : Nat} {x y : Moment} {fault : Diagnostic}

theorem allCut (cut : Sink) (hfull : full.Unfailing) (n : Nat) :
    Everywhere (fun r => r.Pours ∧ r.Cuts cut full) n :=
  (cuts_closed cut hfull).everywhere n

theorem Run.Cuts.exists_done {α : Type} {r : Run α} {v : α} (hr : r.Pours ∧ r.Cuts cut full)
    (htwin : m.Twin cut full m') (h : r m = .done v m₁) :
    ∃ m₁', m₁.Twin cut full m₁' ∧ r m' = .done v m₁' := by
  rcases hr.2 m m' htwin with hends | ⟨_, _, hfailed, -⟩
  · rw [h] at hends
    generalize r m' = e' at hends
    cases hends with
    | done htwin₁ => exact ⟨_, htwin₁, rfl⟩
  · cases h.symm.trans hfailed

theorem Part.twin (hfull : full.Unfailing) (hpart : Part x y)
    (htwin : x.machine.Twin cut full m') :
    ∃ m₁', y.machine.Twin cut full m₁' ∧ Part ⟨x.fuel, x.task, m'⟩ ⟨y.fuel, y.task, m₁'⟩ := by
  have hevaluate : ∀ {n e m m' m₁ v}, m.Twin cut full m' → evaluate n e m = .done v m₁ →
      ∃ m₁', m₁.Twin cut full m₁' ∧ evaluate n e m' = .done v m₁' :=
    fun htwin h => Cuts.exists_done ((allCut cut hfull _).evaluate _) htwin h
  have hexecute : ∀ {n s m m' m₁ flow}, m.Twin cut full m' → execute n s m = .done flow m₁ →
      ∃ m₁', m₁.Twin cut full m₁' ∧ execute n s m' = .done flow m₁' :=
    fun htwin h => Cuts.exists_done ((allCut cut hfull _).execute _) htwin h
  cases hpart with
  | grouping | operand | left | deciding | var | this | assigned | callee | object | holder
    | firstOf | function | expression | print | initial | condition | loopCondition | answer
    | first => exact ⟨m', htwin, by constructor⟩
  | right h =>
      obtain ⟨m₁', htwin₁, h'⟩ := hevaluate htwin h
      exact ⟨m₁', htwin₁, .right h'⟩
  | undecided h hv =>
      obtain ⟨m₁', htwin₁, h'⟩ := hevaluate htwin h
      exact ⟨m₁', htwin₁, .undecided h' hv⟩
  | assign h =>
      obtain ⟨m₁', htwin₁, h'⟩ := hevaluate htwin h
      exact ⟨m₁', htwin₁, .assign h'⟩
  | arguments h =>
      obtain ⟨m₁', htwin₁, h'⟩ := hevaluate htwin h
      exact ⟨m₁', htwin₁, .arguments h'⟩
  | call h hs =>
      obtain ⟨m₁', htwin₁, h'⟩ := hevaluate htwin h
      obtain ⟨m₂', htwin₂, hs'⟩ :=
        Cuts.exists_done ((allCut cut hfull _).evaluateAll _) htwin₁ hs
      exact ⟨m₂', htwin₂, .call h' hs'⟩
  | method h hfield hmethod =>
      obtain ⟨_, ⟨written, hsink, rfl⟩, h'⟩ := hevaluate htwin h
      exact ⟨_, ⟨written, hsink, rfl⟩, .method h' hfield hmethod⟩
  | held h =>
      obtain ⟨m₁', htwin₁, h'⟩ := hevaluate htwin h
      exact ⟨m₁', htwin₁, .held h'⟩
  | othersOf h =>
      obtain ⟨m₁', htwin₁, h'⟩ := hevaluate htwin h
      exact ⟨m₁', htwin₁, .othersOf h'⟩
  | invoke h =>
      obtain ⟨written, hsink, rfl⟩ := htwin
      refine ⟨_, ⟨written, hsink, rfl⟩, .invoke ?_⟩
      rw [checkCall_silent, h]
      rfl
  | receiver h =>
      obtain ⟨written, hsink, rfl⟩ := htwin
      exact ⟨_, ⟨written, hsink, rfl⟩, .receiver h⟩
  | initializer h =>
      obtain ⟨written, hsink, rfl⟩ := htwin
      exact ⟨_, ⟨written, hsink, rfl⟩, .initializer h⟩
  | body =>
      obtain ⟨written, hsink, rfl⟩ := htwin
      exact ⟨_, ⟨written, hsink, rfl⟩, .body⟩
  | block =>
      obtain ⟨written, hsink, rfl⟩ := htwin
      exact ⟨_, ⟨written, hsink, rfl⟩, .block⟩
  | consequent h hv =>
      obtain ⟨m₁', htwin₁, h'⟩ := hevaluate htwin h
      exact ⟨m₁', htwin₁, .consequent h' hv⟩
  | alternative h hv =>
      obtain ⟨m₁', htwin₁, h'⟩ := hevaluate htwin h
      exact ⟨m₁', htwin₁, .alternative h' hv⟩
  | loopBody h hv =>
      obtain ⟨m₁', htwin₁, h'⟩ := hevaluate htwin h
      exact ⟨m₁', htwin₁, .loopBody h' hv⟩
  | loopAgain h hv hs =>
      obtain ⟨m₁', htwin₁, h'⟩ := hevaluate htwin h
      obtain ⟨m₂', htwin₂, hs'⟩ := hexecute htwin₁ hs
      exact ⟨m₂', htwin₂, .loopAgain h' hv hs'⟩
  | others h =>
      obtain ⟨m₁', htwin₁, h'⟩ := hexecute htwin h
      exact ⟨m₁', htwin₁, .others h'⟩

theorem Within.twin (hfull : full.Unfailing) (hwithin : Within x y)
    (htwin : x.machine.Twin cut full m') :
    ∃ m₁', y.machine.Twin cut full m₁' ∧ Within ⟨x.fuel, x.task, m'⟩ ⟨y.fuel, y.task, m₁'⟩ := by
  induction hwithin with
  | refl => exact ⟨m', htwin, .refl⟩
  | tail _ hpart ih =>
      obtain ⟨m₁', htwin₁, hwithin'⟩ := ih
      obtain ⟨m₂', htwin₂, hpart'⟩ := hpart.twin hfull htwin₁
      exact ⟨m₂', htwin₂, hwithin'.tail hpart'⟩

theorem Run.exists_of_writeAll_failed {pieces : List String}
    (h : writeAll pieces m = .failed fault m') :
    ∃ inside rest, m' = m.writingTo (m.sink.append inside) ∧
      String.join pieces = inside ++ rest ∧ rest ≠ "" := by
  induction pieces generalizing m with
  | nil => cases h
  | cons piece pieces ih =>
      rw [String.join_cons]
      by_cases haccepts : m.sink.accepts piece
      · rw [writeAll, bind_apply, write_of_accepts haccepts] at h
        obtain ⟨inside, rest, rfl, hjoin, hrest⟩ := ih h
        refine ⟨piece ++ inside, rest, ?_, by rw [hjoin, String.append_assoc], hrest⟩
        rw [← Sink.append_append]
        rfl
      · rw [writeAll, bind_apply, write_of_not_accepts haccepts] at h
        cases h
        obtain ⟨rest, hrest⟩ := m.sink.exists_takes piece
        refine ⟨m.sink.takes piece, rest ++ String.join pieces, rfl, ?_, fun hempty => ?_⟩
        · rw [← String.append_assoc, ← hrest]
        · obtain ⟨rfl, -⟩ := String.append_eq_empty_iff.mp hempty
          rw [String.append_empty] at hrest
          exact Sink.takes_ne haccepts hrest.symm

theorem Run.writeAll_ne_failed (h : ∀ text, m.sink.room? text = none) (pieces : List String) :
    writeAll pieces m ≠ .failed fault m' := by
  induction pieces generalizing m with
  | nil => exact fun hfailed => by cases hfailed
  | cons piece pieces ih =>
      have haccepts : m.sink.accepts piece := by rw [Sink.accepts, h]
      rw [writeAll, bind_apply, write_of_accepts haccepts]
      exact ih (m := m.writingTo (m.sink.append piece)) h

/-- A run that ends since its sink is full ends at a statement that prints. -/
theorem exists_print_of_full (h : x.ending = .failed (.output .full) m') :
    ∃ n e m v m₁ m₂, Within x ⟨n + 1, .execute (.print e), m⟩ ∧ evaluate n e m = .done v m₁ ∧
      Run.print v m₁ = .failed (.output .full) m₂ ∧ m'.atRest = m₂.atRest := by
  obtain ⟨y, m₂, hwithin, -, hraises, hrest⟩ := Moment.exists_raises h
  cases hraises with
  | print hv hprint => exact ⟨_, _, _, _, _, m₂, hwithin, hv, hprint, hrest⟩
  | unary _ h | binary _ _ h =>
      obtain ⟨_, -, hfault⟩ := failed_ofExcept h
      cases hfault
  | property _ h => obtain ⟨⟨⟩⟩ | ⟨⟨⟩⟩ := failed_getProperty h
  | holder _ h => cases h
  | lookUp h =>
      unfold Run.lookUp at h
      dsimp only at h
      split at h <;> cases h
  | assign h =>
      unfold Run.assign at h
      dsimp only at h
      split at h <;> cases h
  | check h => obtain ⟨⟨⟩⟩ | ⟨_, ⟨⟩⟩ | ⟨⟨⟩⟩ := failed_checkCall h

/-- In the course of the moment a value is printed of which the other sink does not take the whole
line. Until then `before` is written, and of the line `inside` fits in. The machine that is left is
the one that is about to print, but at rest. -/
def Moment.CutAt (cut full : Sink) (before inside : String) (left : Machine) (x : Moment) : Prop :=
  ∃ n e m v m₁ rest, Within x ⟨n + 1, .execute (.print e), m⟩ ∧ evaluate n e m = .done v m₁ ∧
    m₁.sink = full.append before ∧ v.text ++ "\n" = inside ++ rest ∧ rest ≠ "" ∧
    left = m₁.atRest.writingTo (cut.append (before ++ inside))

theorem Sink.append_inj {sink : Sink} {piece piece' : String}
    (h : sink.append piece = sink.append piece') : piece = piece' := by
  have htext : sink.text ++ piece = sink.text ++ piece' := congrArg Sink.text h
  exact String.append_right_inj _ |>.mp htext

/-- A run that is cut off is so at a moment of the other run. -/
theorem Moment.cutAt_of_full {task : Task} (hfull : full.Unfailing) (htwin : m.Twin cut full m')
    (h : Moment.ending ⟨n, task, m⟩ = .failed (.output .full) m₁) :
    ∃ before inside, m₁.sink = cut.append (before ++ inside) ∧
      Moment.CutAt cut full before inside m₁.atRest ⟨n, task, m'⟩ := by
  obtain ⟨k, e, m₂, v, m₃, m₄, hwithin, hv, hprint, hrest⟩ := exists_print_of_full h
  obtain ⟨m₂', htwin₂, hwithin'⟩ := hwithin.twin hfull htwin
  obtain ⟨_, ⟨before, hbefore, rfl⟩, hv'⟩ :=
    Cuts.exists_done ((allCut cut hfull _).evaluate _) htwin₂ hv
  obtain ⟨inside, rest, rfl, hjoin, hne⟩ := exists_of_writeAll_failed hprint
  rw [String.join_append, Value.join_pieces] at hjoin
  rw [hbefore, Sink.append_append] at hrest
  refine ⟨before, inside, congrArg Machine.sink hrest, k, e, m₂', v, _, rest, hwithin', hv', rfl,
    ?_, hne, ?_⟩
  · simpa using hjoin
  · rw [hrest]
    rfl

end Lox
