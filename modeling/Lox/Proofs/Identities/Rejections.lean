import Lox.Proofs.Identities.Issuing
import Lox.Proofs.Identities.Twins

/-!
Texts with static faults leave no trace.

A session that was given such texts is the twin of one that was not: only its counter of identities
stands elsewhere. So both show the same of all that they are asked to do.
-/

namespace Lox

/-- What a session shows of a step: the answer, and the text in its sink afterwards. -/
structure Entry where
  step : Step
  answer : Answer
  output : String

def Answer.isRejection : Answer → Bool
  | .staticErrors _ => true
  | _ => false

/-- The entry without the identities of the nodes in functions. -/
def Entry.plain (entry : Entry) : Entry :=
  { entry with answer := entry.answer.relabel fun _ => 0 }

/-- What a session shows of one step after another. -/
def transcript (take : Session → Step → Answer × Session) (s : Session) : List Step → List Entry
  | [] => []
  | step :: steps =>
      ⟨step, (take s step).1, (take s step).2.output⟩ :: transcript take (take s step).2 steps

/-- The entries of steps that were not rejected. -/
def accepted (entries : List Entry) : List Entry :=
  entries.filter fun entry => !entry.answer.isRejection

theorem Class.relabel_relabel (f g : NodeId → NodeId) (c : Class) :
    (c.relabel f).relabel g = c.relabel (g ∘ f) := by
  have hmethod : Routine.relabel g ∘ Routine.relabel f = Routine.relabel (g ∘ f) := by
    funext r
    exact congrArg (fun d => { r with declaration := d }) (r.declaration.relabel_relabel f g)
  rw [Class.relabel, Class.relabel, Class.relabel, Bindings.map_map, hmethod]

theorem Value.relabel_relabel (f g : NodeId → NodeId) (v : Value) :
    (v.relabel f).relabel g = v.relabel (g ∘ f) := by
  cases v with
  | function c =>
      exact congrArg (fun d => Value.function { c with routine.declaration := d })
        (c.routine.declaration.relabel_relabel f g)
  | class_ c => exact congrArg Value.class_ (c.relabel_relabel f g)
  | instance_ inst c => exact congrArg (Value.instance_ inst) (c.relabel_relabel f g)
  | _ => rfl

theorem Answer.relabel_relabel (f g : NodeId → NodeId) (a : Answer) :
    (a.relabel f).relabel g = a.relabel (g ∘ f) := by
  cases a with
  | value v => exact congrArg Answer.value (v.relabel_relabel f g)
  | _ => rfl

namespace Reader

variable (R : Reader)

theorem isRejection_conclude {α : Type} {s : Session} {answer : α → Answer} {e : Ending α}
    (h : (s.conclude answer e).1.isRejection) : ∃ v m, e = .done v m ∧ (answer v).isRejection := by
  cases e with
  | done v m => exact ⟨v, m, rfl, h⟩
  | failed fault m => cases h
  | unfinished => cases h

/-- A step that is rejected uses up identities and nothing else. -/
theorem take_of_rejected {s : Session} {step : Step} (h : (R.take s step).1.isRejection) :
    ∃ built, (R.take s step).2 = s.past built := by
  cases step with
  | run fuel source =>
      revert h
      dsimp only [take, run]
      split
      · exact fun _ => ⟨_, rfl⟩
      · split
        · exact fun _ => ⟨_, rfl⟩
        · intro h
          obtain ⟨v, m, -, hanswer⟩ := isRejection_conclude h
          cases hanswer
  | evaluate fuel source =>
      revert h
      dsimp only [take, evaluate]
      split
      · intro h
        obtain ⟨v, m, -, hanswer⟩ := isRejection_conclude h
        cases hanswer
      · exact fun _ => ⟨_, rfl⟩
  | writeTo sink => cases h

end Reader

namespace Twins

variable {known : List NodeId} {f : NodeId → NodeId} {s s' : Session}

theorem entry (h : Twins known f s s') (R R' : Reader) (step : Step) :
    Entry.plain ⟨step, (R'.take s' step).1, (R'.take s' step).2.output⟩ =
        Entry.plain ⟨step, (R.take s step).1, (R.take s step).2.output⟩ ∧
      ∃ known' f', Twins known' f' (R.take s step).2 (R'.take s' step).2 := by
  obtain ⟨known', f', hanswer, htwins⟩ := h.take R R' step
  refine ⟨?_, known', f', htwins⟩
  rw [Entry.plain, Entry.plain, hanswer, htwins.output, Answer.relabel_relabel]
  rfl

theorem transcript (h : Twins known f s s') (R R' : Reader) (steps : List Step) :
    (Lox.transcript R'.take s' steps).map Entry.plain =
      (Lox.transcript R.take s steps).map Entry.plain := by
  induction steps generalizing known f s s' with
  | nil => rfl
  | cons step steps ih =>
      obtain ⟨hentry, known', f', htwins⟩ := h.entry R R' step
      rw [Lox.transcript, Lox.transcript, List.map_cons, List.map_cons, hentry, ih htwins]

/-- A twin that is spared the rejected steps shows the same of all others. -/
theorem transcript_accepted (h : Twins known f s s') (R R' : Reader) (steps : List Step) :
    (Lox.transcript R'.take s' ((accepted (Lox.transcript R.take s steps)).map Entry.step)).map
        Entry.plain =
      (accepted (Lox.transcript R.take s steps)).map Entry.plain := by
  induction steps generalizing known f s s' with
  | nil => rfl
  | cons step steps ih =>
      rw [Lox.transcript, accepted, List.filter_cons]
      dsimp only
      by_cases hrejected : (R.take s step).1.isRejection
      -- the twin takes no step here, and only the other counter goes on
      · obtain ⟨built, hpast⟩ := R.take_of_rejected hrejected
        rw [if_neg (by simp [hrejected]), hpast]
        exact ih (h.past built [])
      · obtain ⟨hentry, known', f', htwins⟩ := h.entry R R' step
        rw [if_pos (by simp [hrejected]), List.map_cons, Lox.transcript, List.map_cons,
          List.map_cons]
        exact congrArg₂ List.cons hentry (ih htwins)

end Twins

/-- A session shows the same whether it numbers trees without a fault or gives identities to all
nodes as they are read. -/
theorem transcript_issuing (clock : Nat → Float) (first : NodeId) (steps : List Step) :
    (transcript Reader.issuing.take { Session.new clock with nextNode := first } steps).map
        Entry.plain =
      (transcript Session.take (.new clock) steps).map Entry.plain := by
  rw [← Reader.take_numbering]
  exact (twins_new clock 0 first).transcript Reader.numbering Reader.issuing steps

/-- If the steps that are rejected are left out, the session shows the same of all others. -/
def IgnoresRejected (take : Session → Step → Answer × Session) (s : Session) (steps : List Step) :
    Prop :=
  (transcript take s ((accepted (transcript take s steps)).map Entry.step)).map Entry.plain =
    (accepted (transcript take s steps)).map Entry.plain

/-- From any first identity on, and whether identities are given to trees without a fault or to all
nodes as they are read, a session is as if rejected texts had never been submitted. -/
theorem ignoresRejected_new (clock : Nat → Float) (first : NodeId) (steps : List Step) :
    IgnoresRejected Session.take { Session.new clock with nextNode := first } steps ∧
      IgnoresRejected Reader.issuing.take { Session.new clock with nextNode := first } steps := by
  have htwins := twins_new clock first first
  constructor
  · rw [IgnoresRejected, ← Reader.take_numbering]
    exact htwins.transcript_accepted Reader.numbering Reader.numbering steps
  · exact htwins.transcript_accepted Reader.issuing Reader.issuing steps

end Lox
