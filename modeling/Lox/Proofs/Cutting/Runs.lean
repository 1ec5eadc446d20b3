import Lox.Proofs.Printing.Units
import Lox.Proofs.Running.Faults

/-!
Runs on a sink that fails at some point.

Such a run is one on a sink that never fails, up to the piece of text that is not taken. If it comes
to that piece it ends there, and what it has written is the beginning of what the other run writes.
-/

namespace Lox

variable {α β : Type} {cut full : Sink} {m m' : Machine} {fault : Diagnostic}

/-- The machines differ in their sinks at most, and the same was written to both of these. -/
def Machine.Twin (cut full : Sink) (m m' : Machine) : Prop :=
  ∃ written, m.sink = cut.append written ∧ m' = m.writingTo (full.append written)

/-- Both runs end in the same way. -/
inductive Ending.Twins (cut full : Sink) : Ending α → Ending α → Prop
  | done {v : α} {m m' : Machine} (h : m.Twin cut full m') : Twins cut full (.done v m) (.done v m')
  | failed {fault : Diagnostic} {m m' : Machine} (h : m.Twin cut full m') :
      Twins cut full (.failed fault m) (.failed fault m')
  | unfinished : Twins cut full .unfinished .unfinished

/-- The first run ends since its sink is full. What it has written is written by the second one as
well, if that ends at all. -/
def Ending.CutOff (cut full : Sink) (e e' : Ending α) : Prop :=
  ∃ m written, e = .failed (.output .full) m ∧ m.sink = cut.append written ∧
    ∀ m', e'.machine? = some m' → ∃ rest, m'.sink = full.append (written ++ rest)

namespace Sink

variable {sink : Sink} {piece : String}

theorem exists_takes (sink : Sink) (piece : String) : ∃ rest, piece = sink.takes piece ++ rest := by
  unfold takes
  split
  · exact ⟨"", String.append_empty.symm⟩
  · rename_i room _
    refine ⟨.ofList (piece.toList.drop room), ?_⟩
    rw [← String.ofList_append, List.take_append_drop, String.ofList_toList]

theorem takes_ne (h : ¬sink.accepts piece) : sink.takes piece ≠ piece := by
  unfold accepts at h
  unfold takes
  split at h
  · exact absurd rfl h
  · intro heq
    have htaken := congrArg String.length heq
    rw [String.length_ofList, List.length_take, String.length_toList] at htaken
    have hroom := of_decide_eq_false (Bool.eq_false_iff.mpr h)
    omega

end Sink

namespace Run

/-- Every run of this kind ends in the same way on both sinks, or is cut off on the first one. -/
def Cuts (cut full : Sink) (r : Run α) : Prop :=
  ∀ m m' : Machine, m.Twin cut full m' →
    (r m).Twins cut full (r m') ∨ (r m).CutOff cut full (r m')

variable {r : Run α}

theorem cuts_of_silent (h : r.Silent) : r.Cuts cut full := by
  rintro m _ ⟨written, hsink, rfl⟩
  have hsame : r m = (r m).writingTo m.sink := h m m.sink
  refine .inl ?_
  rw [h]
  cases hr : r m with
  | done v m₁ =>
      rw [hr] at hsame
      have hm₁ : m₁ = m₁.writingTo m.sink := (Ending.done.inj hsame).2
      exact .done ⟨written, (congrArg Machine.sink hm₁).trans hsink, rfl⟩
  | failed fault m₁ =>
      rw [hr] at hsame
      have hm₁ : m₁ = m₁.writingTo m.sink := (Ending.failed.inj hsame).2
      exact .failed ⟨written, (congrArg Machine.sink hm₁).trans hsink, rfl⟩
  | unfinished => exact .unfinished

/-- What comes after a run that is cut off can only add to what the other sink has. -/
theorem cutOff_bind {k : α → Run β} (hfull : full.Unfailing) (hk : ∀ a, (k a).Pours)
    (h : (r m).CutOff cut full (r m')) : ((r >>= k) m).CutOff cut full ((r >>= k) m') := by
  obtain ⟨m₁, written, hfailed, hsink, hends⟩ := h
  refine ⟨m₁, written, by rw [bind_apply, hfailed], hsink, fun m₂ hm₂ => ?_⟩
  rw [bind_apply] at hm₂
  cases hr : r m' with
  -- the first run is cut off all the same, and the rest only adds to what the other sink has
  | done a m₁' =>
      rw [hr] at hm₂ hends
      obtain ⟨rest, hrest⟩ := hends m₁' rfl
      obtain ⟨more, hmore⟩ := (hk a).exists_sink (hrest ▸ hfull.append _) hm₂
      exact ⟨rest ++ more, by rw [hmore, hrest, Sink.append_append, String.append_assoc]⟩
  | failed fault m₁' =>
      rw [hr] at hm₂ hends
      exact hends m₂ hm₂
  | unfinished =>
      rw [hr] at hm₂
      cases hm₂

theorem Cuts.bind {k : α → Run β} (hfull : full.Unfailing) (h : r.Cuts cut full)
    (hk : ∀ a, (k a).Pours ∧ (k a).Cuts cut full) : (r >>= k).Cuts cut full := by
  intro m m' htwin
  rcases h m m' htwin with hr | hr
  · rw [bind_apply, bind_apply]
    generalize r m = e, r m' = e' at hr
    cases hr with
    | done htwin => exact (hk _).2 _ _ htwin
    | failed htwin => exact .inl (.failed htwin)
    | unfinished => exact .inl .unfinished
  · exact .inr (cutOff_bind hfull (fun a => (hk a).1) hr)

theorem Cuts.around {r' : Run α} (h : r.Cuts cut full) (enter : Machine → Machine)
    (leave : Machine → Machine → Machine) (hr : ∀ m, r' m = (r (enter m)).leaving (leave m))
    (henter : ∀ m m', m.Twin cut full m' → (enter m).Twin cut full (enter m'))
    (hsink : ∀ m m₁, (leave m m₁).sink = m₁.sink)
    (hleave : ∀ m m' m₁ m₁', m.Twin cut full m' → m₁.Twin cut full m₁' →
      (leave m m₁).Twin cut full (leave m' m₁')) : r'.Cuts cut full := by
  intro m m' htwin
  rw [hr, hr]
  rcases h _ _ (henter m m' htwin) with hends | ⟨m₁, written, hfailed, hwritten, hends⟩
  · generalize r (enter m) = e, r (enter m') = e' at hends
    cases hends with
    | done hends => exact .inl (.done (hleave _ _ _ _ htwin hends))
    | failed hends => exact .inl (.failed (hleave _ _ _ _ htwin hends))
    | unfinished => exact .inl .unfinished
  · refine .inr ⟨leave m m₁, written, by rw [hfailed]; rfl, (hsink m m₁).trans hwritten, ?_⟩
    intro m₂ hm₂
    cases hfull : r (enter m') with
    | done a m₁' | failed fault m₁' =>
        rw [hfull] at hm₂ hends
        cases hm₂
        rw [hsink]
        exact hends m₁' rfl
    | unfinished =>
        rw [hfull] at hm₂
        cases hm₂

theorem Cuts.inScope (h : r.Cuts cut full) (s : ScopeId) : (inScope s r).Cuts cut full := by
  refine h.around _ _ (inScope_eq s r) ?_ (fun _ _ => rfl) ?_
  · rintro m _ ⟨written, hsink, rfl⟩
    exact ⟨written, hsink, rfl⟩
  · rintro m _ m₁ _ ⟨_, _, rfl⟩ ⟨written, hsink, rfl⟩
    exact ⟨written, hsink, rfl⟩

theorem Cuts.counted (h : r.Cuts cut full) : (counted r).Cuts cut full := by
  refine h.around _ (fun _ m' => { m' with depth := m'.depth - 1 }) (counted_eq r) ?_
    (fun _ _ => rfl) ?_
  · rintro m _ ⟨written, hsink, rfl⟩
    exact ⟨written, hsink, rfl⟩
  · rintro m _ m₁ _ - ⟨written, hsink, rfl⟩
    exact ⟨written, hsink, rfl⟩

theorem write_cuts (hfull : full.Unfailing) (piece : String) : (write piece).Cuts cut full := by
  rintro m _ ⟨written, hsink, rfl⟩
  have hother := write_of_unfailing (m := m.writingTo (full.append written)) (hfull.append _) piece
  rw [hother]
  by_cases haccepts : m.sink.accepts piece
  · rw [write_of_accepts haccepts]
    refine .inl (.done ⟨written ++ piece, ?_, ?_⟩)
    · rw [hsink, Sink.append_append]
      rfl
    · exact congrArg (Machine.writingTo _) (Sink.append_append full written piece)
  · rw [write_of_not_accepts haccepts]
    obtain ⟨rest, hrest⟩ := m.sink.exists_takes piece
    refine .inr ⟨_, written ++ m.sink.takes piece, rfl, ?_, fun m₂ hm₂ => ?_⟩
    · rw [hsink, Sink.append_append]
      rfl
    · cases hm₂
      refine ⟨rest, ?_⟩
      rw [String.append_assoc, ← hrest, ← Sink.append_append]
      rfl

theorem cuts_closed (cut : Sink) (hfull : full.Unfailing) :
    Closed fun r => r.Pours ∧ r.Cuts cut full :=
  closed_of_silent (fun h => ⟨pours_of_silent h, cuts_of_silent h⟩)
    (fun h hk => ⟨h.1.bind fun a => (hk a).1, h.2.bind hfull hk⟩)
    (fun scope h => ⟨h.1.inScope scope, h.2.inScope scope⟩)
    (fun h => ⟨h.1.counted, h.2.counted⟩) fun piece => ⟨write_pours piece, write_cuts hfull piece⟩

end Run

end Lox
