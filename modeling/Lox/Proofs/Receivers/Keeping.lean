import Lox.Proofs.Marks.Sessions
import Lox.Proofs.Receivers.Spelling
import Lox.Proofs.Separation.Histories
import Lox.Proofs.Running.SessionSoundness

/-!
Where receivers come from.

A scope that holds a receiver was made for it when a method was bound, and nothing else is ever
written to the name of the receiver. So an initializer finds its receiver in the scope around it,
and each instance that is met was made before.
-/

namespace Lox

open Resolution

/-- The scopes were made at moments that are known, those that hold a receiver by binding a method
to it. -/
structure Heap.MadeAt (known : Moment → Prop) (h : Heap) : Prop where
  enclosing : ∀ s outer, h.scopes.enclosing? s = some outer →
    ∃ x, known x ∧ x.makes?.isSome ∧ x.machine.scopes.size = s ∧ x.around = outer
  receiver : ∀ s v, h.scopes.own? s thisName = some v →
    ∃ n r m, known ⟨n, .bindMethod r v, m⟩ ∧ m.scopes.size = s

namespace Heap.MadeAt

variable {known : Moment → Prop} {h : Heap}

theorem push (hh : h.MadeAt known) {x : Moment} (hx : known x) (hmakes : x.makes?.isSome)
    (hsize : x.machine.scopes.size = h.scopes.size) : (h.push x.around).MadeAt known := by
  constructor
  · intro s outer houter
    rw [Heap.push, Scopes.enclosing?_push] at houter
    split at houter
    · rename_i hs
      obtain rfl : x.around = outer := Option.some.inj (Option.filter_eq_some_iff.mp houter).1
      exact ⟨x, hx, hmakes, hsize.trans hs.symm, rfl⟩
    · exact hh.enclosing s outer houter
  · intro s v hv
    rw [Heap.push, Scopes.own?_push] at hv
    exact hh.receiver s v hv

/-- A name other than that of the receiver may be bound anywhere, and that one in the scope that was
made for it. -/
theorem define (hh : h.MadeAt known) (s : ScopeId) {name : String} {v : Value}
    (hname : name = thisName → ∃ n r m, known ⟨n, .bindMethod r v, m⟩ ∧ m.scopes.size = s) :
    (h.define s name v).MadeAt known := by
  constructor
  · intro s' outer houter
    rw [Heap.define, Scopes.enclosing?_define] at houter
    exact hh.enclosing s' outer houter
  · intro s' v' hv'
    rw [Heap.define, Scopes.own?_define] at hv'
    split at hv'
    · rename_i heq
      obtain ⟨rfl, hthis, -⟩ := heq
      cases hv'
      exact hname hthis
    · exact hh.receiver s' v' hv'

end Heap.MadeAt

/-- What a session keeps to as to receivers, if these are its moments. -/
def Discipline.receivers (known : Moment → Prop) : Discipline where
  mark := Mark.SparesReceiver
  moment := known
  scope _ := True
  object _ := True
  instance_ h i := i < h.instances.size
  function h r := r.initializes → (h.scopes.own? r.scope thisName).isSome
  method name r :=
    r.declaration.name.lexeme = name ∧ (r.initializes ↔ name = initializerName)
  heap h := h.MadeAt known
  outermost := trivial
  newScope _ := trivial
  newObject _ := trivial
  newInstance h := by simp [Heap.addInstance]
  declared _ _ _ hinit := by cases hinit
  declaredMethod d s := ⟨rfl, by simp⟩
  bound h receiver hr hinit := by
    rw [Heap.bind, Heap.define, Heap.push, Scopes.own?_define_self (by simp)]
    rfl
  instance_extends hextends hi := Nat.lt_of_lt_of_le hi hextends.instances
  function_extends hextends hr hinit := hextends.scopes.own _ _ (hr hinit)
  heap_push hx hmakes hh := hh.push hx (by rw [hmakes]; rfl) rfl
  heap_receive hx _ hh := hh.define _ fun _ => ⟨_, _, _, hx, rfl⟩
  heap_define v _ _ _ hmark hh := by
    refine hh.define _ fun hthis => absurd hthis ?_
    rcases hmark with hmark | hmark <;> exact hmark
  heap_addInstance hh := ⟨hh.enclosing, hh.receiver⟩
  heap_setField _ _ _ hh := ⟨hh.enclosing, hh.receiver⟩

namespace Session

variable {clock : Nat → Float} {history : List (Session × Step)} {s s' : Session}
  {step step' : Step}
  {known : Moment → Prop} {x : Moment}

theorem obeys_receivers (hknown : ∀ x, s.Passes step x → known x) :
    Step.Obeys (.receivers known) s step where
  marked start hstart := by
    obtain ⟨source, hmarks⟩ := marks_of_start? hstart
    exact fun k hk => (hmarks k hk).1.sparesReceiver (hmarks k hk).2
  moments := hknown

theorem Reached.keeps_receivers (h : Reached clock history s)
    (hknown : ∀ x, Occurs history x → known x) :
    (Discipline.receivers known).Keeps s.machine := by
  induction h with
  | new =>
      refine Discipline.keeps_new ⟨?_, ?_⟩
      · intro s outer houter
        rw [Machine.heap, Machine.enclosing?_new] at houter
        cases houter
      · intro s v hv
        have hname : Native.clock.name ≠ thisName := by decide
        rw [Machine.heap, Machine.new, Scopes.own?_define, if_neg fun h => hname h.2.1] at hv
        rw [Scopes.own?_push, Scopes.own?_of_size_le (Nat.zero_le _)] at hv
        cases hv
  | step h step hends ih =>
      have hkeeps := ih fun x hx => hknown x (occurs_cons_iff.mpr (.inr hx))
      have hobeys := obeys_receivers fun x hx => hknown x (occurs_cons_iff.mpr (.inl hx))
      exact keeps_take hkeeps hobeys ⟨h.sound.current, h.sound.depth⟩

theorem Reached.admits_receivers (h : Reached clock history s)
    (hx : Occurs ((s, step) :: history) x) :
    (Discipline.receivers (Occurs ((s, step) :: history))).Admits x := by
  obtain ⟨s', step', hmem, hx⟩ := hx
  obtain ⟨before, hbefore, hsubset⟩ := h.exists_of_mem_cons hmem
  have hkeeps := hbefore.keeps_receivers fun y hy =>
    (occurs_cons_iff.mpr (.inr hy)).mono hsubset
  exact admits_of_passes hkeeps (obeys_receivers fun y hy => ⟨s', step', hmem, hy⟩) hx

end Session

end Lox
