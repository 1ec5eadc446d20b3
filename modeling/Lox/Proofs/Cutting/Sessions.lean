import Lox.Proofs.Cutting.Moments
import Lox.Proofs.Printing.Futures

/-!
A sink that fails only cuts a unit short.

A session answers and writes as it would on a sink that never fails, or else it stops in the middle
of a line that it would have written. A flush that fails changes the answer and nothing else.
-/

namespace Lox

variable {cut full : Sink} {m m' m₁ : Machine} {n : Nat} {program : List (Stmt NodeId)}

/-- A program ends alike on both sinks, or it is cut off at one of its moments. -/
theorem executeAll_cut (hfull : full.Unfailing) (htwin : m.Twin cut full m') :
    (executeAll n program m).Twins cut full (executeAll n program m') ∨
      ∃ before inside m₁, executeAll n program m = .failed (.output .full) m₁ ∧
        m₁.sink = cut.append (before ++ inside) ∧
        Moment.CutAt cut full before inside m₁.atRest ⟨n, .executeAll program, m'⟩ ∧
        ∀ m₂, (executeAll n program m').machine? = some m₂ →
          ∃ rest, m₂.sink = full.append (before ++ inside ++ rest) := by
  rcases ((allCut cut hfull n).executeAll program).2 m m' htwin with
    hends | ⟨m₁, written, hfailed, hwritten, hends⟩
  · exact .inl hends
  · have hending : Moment.ending ⟨n, .executeAll program, m⟩ = .failed (.output .full) m₁ :=
      Ending.map_eq_failed_iff.mpr hfailed
    obtain ⟨before, inside, hsink, hcut⟩ := Moment.cutAt_of_full hfull htwin hending
    obtain rfl := Sink.append_inj (hwritten.symm.trans hsink)
    exact .inr ⟨before, inside, m₁, hfailed, hsink, hcut, hends⟩

theorem Machine.twin_writingTo (m : Machine) (cut full : Sink) :
    (m.writingTo cut).Twin cut full (m.writingTo full) :=
  ⟨"", (Sink.append_empty cut).symm, by rw [Sink.append_empty]; rfl⟩

/-- How a program ends before its sink is flushed. -/
def Ending.atRest : Ending Flow → Ending Unit
  | .done _ m => .done () m.atRest
  | .failed fault m => .failed fault m.atRest
  | .unfinished => .unfinished

theorem interpret_of_flushes (h : ∀ m₁, (executeAll n program m).machine? = some m₁ →
    m₁.sink.flushes = true) :
    Machine.interpret n program m = (executeAll n program m).atRest := by
  unfold Machine.interpret
  cases hrun : executeAll n program m with
  | done flow m₁ | failed fault m₁ => exact if_pos (h m₁ (by rw [hrun]; rfl))
  | unfinished => rfl

theorem Ending.Twins.atRest {e e' : Ending Flow} (h : e.Twins cut full e') :
    e.atRest.Twins cut full e'.atRest := by
  cases h with
  | done h =>
      obtain ⟨written, hsink, rfl⟩ := h
      exact .done ⟨written, hsink, rfl⟩
  | failed h =>
      obtain ⟨written, hsink, rfl⟩ := h
      exact .failed ⟨written, hsink, rfl⟩
  | unfinished => exact .unfinished

theorem Ending.Twins.exists_sink {α : Type} {e e' : Ending α} (h : e.Twins cut full e')
    (hm : e.machine? = some m) : ∃ written, m.sink = cut.append written := by
  cases h with
  | done h | failed h =>
      cases hm
      obtain ⟨written, hsink, -⟩ := h
      exact ⟨written, hsink⟩
  | unfinished => cases hm

namespace Session

variable {s s' : Session} {source : String} {fuel : Nat} {whole : Answer × Session}

theorem conclude_twins {answer : Unit → Answer} {e e' : Ending Unit} (h : e.Twins cut full e')
    (hwhole : (s.writingTo full).conclude answer e' = whole) (hends : whole.1 ≠ .unfinished) :
    ∃ written, whole.2.output = full.text ++ written ∧
      (s.writingTo cut).conclude answer e = (whole.1, whole.2.writingTo (cut.append written)) := by
  subst hwhole
  cases h with
  | done h | failed h =>
      obtain ⟨written, hsink, rfl⟩ := h
      refine ⟨written, rfl, ?_⟩
      rw [← hsink]
      rfl
  | unfinished => exact absurd rfl hends

section

variable (hunit : s.unit? source = some (program, s')) (hfull : full.Unfailing)
  (hwhole : (s.writingTo full).run fuel source = whole) (hends : whole.1 ≠ .unfinished)

include hunit hfull hwhole

theorem whole_eq : whole = (s'.writingTo full).conclude (fun _ => .completed)
    (executeAll fuel program (s'.machine.writingTo full)).atRest := by
  rw [← hwhole, run_of_unit? (unit?_writingTo hunit full)]
  refine congrArg _ (interpret_of_flushes fun m₁ hm₁ => ?_)
  obtain ⟨written, hsink⟩ := ((allPour fuel).executeAll program).exists_sink
    (m := s'.machine.writingTo full) hfull hm₁
  rw [hsink]
  exact hfull.flushes

include hends

/-- On a sink that fails at some point a unit ends as on one that never fails, or it stops inside a
line that it would have written there. -/
theorem run_of_flushes (hflushes : cut.flushes = true) :
    ∃ written rest, whole.2.output = full.text ++ (written ++ rest) ∧
      ((s.writingTo cut).run fuel source).2.output = cut.text ++ written ∧
      (rest = "" ∧ (s.writingTo cut).run fuel source =
          (whole.1, whole.2.writingTo (cut.append written)) ∨
        ∃ before inside m, written = before ++ inside ∧
          (∃ start ∈ (s.writingTo full).start? (.run fuel source),
            start.CutAt cut full before inside m) ∧
          (s.writingTo cut).run fuel source =
            (.runtimeError (.output .full), { s' with machine := m })) := by
  have hstart : (s.writingTo full).start? (.run fuel source) =
      some ⟨fuel, .executeAll program, s'.machine.writingTo full⟩ := by
    rw [start?, unit?_writingTo hunit]
    rfl
  have hwhole := whole_eq hunit hfull hwhole
  have hmachine : (s'.writingTo cut).machine = s'.machine.writingTo cut := rfl
  rw [run_of_unit? (unit?_writingTo hunit cut), hmachine]
  rcases executeAll_cut hfull (s'.machine.twin_writingTo cut full) with
    htwins | ⟨before, inside, m₁, hfailed, hsink, hcut, hprefix⟩
  · rw [interpret_of_flushes fun m₁ hm₁ => ?_]
    · obtain ⟨written, houtput, hrun⟩ := conclude_twins htwins.atRest hwhole.symm hends
      refine ⟨written, "", by rw [houtput, String.append_empty], ?_, .inl ⟨rfl, hrun⟩⟩
      exact congrArg (fun taken => taken.2.output) hrun
    · obtain ⟨written, hsink⟩ := htwins.exists_sink hm₁
      rw [hsink]
      exact hflushes
  · rw [interpret_of_flushes fun m₂ hm₂ => ?_, hfailed]
    · cases hrun : executeAll fuel program (s'.machine.writingTo full) with
      | done flow m₂ | failed fault m₂ =>
          rw [hrun] at hwhole
          obtain ⟨rest, hrest⟩ := hprefix m₂ (by rw [hrun]; rfl)
          refine ⟨before ++ inside, rest, ?_, congrArg Sink.text hsink,
            .inr ⟨before, inside, m₁.atRest, rfl, ⟨_, hstart, hcut⟩, rfl⟩⟩
          rw [hwhole]
          exact congrArg Sink.text hrest
      | unfinished =>
          rw [hrun] at hwhole
          exact absurd (congrArg Prod.fst hwhole) hends
    · rw [hfailed] at hm₂
      cases hm₂
      rw [hsink]
      exact hflushes

/-- If a sink has room for everything but cannot be flushed, that is what the answer is about, and
all else is as on a sink that never fails. -/
theorem run_of_not_flushes (hroom : ∀ text, cut.room? text = none)
    (hflushes : cut.flushes = false) :
    ∃ written, whole.2.output = full.text ++ written ∧ (s.writingTo cut).run fuel source =
      (.runtimeError (.output .flushFailed), whole.2.writingTo (cut.append written)) := by
  have hwhole := whole_eq hunit hfull hwhole
  have hmachine : (s'.writingTo cut).machine = s'.machine.writingTo cut := rfl
  rw [run_of_unit? (unit?_writingTo hunit cut), hmachine]
  have htwin := s'.machine.twin_writingTo cut full
  rcases (executeAll_cut hfull htwin : (executeAll fuel program _).Twins _ _ _ ∨ _) with
    htwins | ⟨before, inside, m₁, hfailed, -⟩
  · subst hwhole
    unfold Machine.interpret
    dsimp only
    generalize executeAll fuel program (s'.machine.writingTo cut) = e,
      executeAll fuel program (s'.machine.writingTo full) = e' at htwins hends ⊢
    cases htwins with
    | done h | failed h =>
        obtain ⟨written, hsink, rfl⟩ := h
        refine ⟨written, rfl, ?_⟩
        dsimp only
        rw [if_neg (by simp [Machine.atRest, hsink, Sink.append, hflushes]), ← hsink]
        rfl
    | unfinished => exact absurd rfl hends
  · obtain ⟨_, _, _, _, m₂, _, hwithin, hv, hprint, -⟩ := exists_print_of_full
      (x := ⟨fuel, .executeAll program, _⟩) (Ending.map_eq_failed_iff.mpr hfailed)
    obtain ⟨_, htwin, -⟩ := hwithin.twin hfull (s'.machine.twin_writingTo cut full)
    obtain ⟨_, ⟨written, hsink, -⟩, -⟩ :=
      Run.Cuts.exists_done ((allCut cut hfull _).evaluate _) htwin hv
    exact absurd hprint (Run.writeAll_ne_failed (by rw [hsink]; exact hroom) _)

end

/-- A unit that ends on a sink that never fails is run on another one, from the same state. If that
fails at some point, though not in its flush, it has a beginning of the text. Either this is the
whole text, and the answer and the session are the same, or the answer is that the sink is full, and
the machine is at rest but otherwise as it was before some value was printed in the other run; the
text ends inside the line of this value. If only the flush of the sink fails, this is the answer in
any case, and the rest is the same. -/
theorem run_cut_short (hunit : s.unit? source = some (program, s')) (hfull : full.Unfailing)
    (hwhole : (s.writingTo full).run fuel source = whole) (hends : whole.1 ≠ .unfinished) :
    (cut.flushes = true →
        ∃ written rest, whole.2.output = full.text ++ (written ++ rest) ∧
          ((s.writingTo cut).run fuel source).2.output = cut.text ++ written ∧
          (rest = "" ∧ (s.writingTo cut).run fuel source =
              (whole.1, whole.2.writingTo (cut.append written)) ∨
            ∃ before inside m, written = before ++ inside ∧
              (∃ start ∈ (s.writingTo full).start? (.run fuel source),
                start.CutAt cut full before inside m) ∧
              (s.writingTo cut).run fuel source =
                (.runtimeError (.output .full), { s' with machine := m }))) ∧
      ((∀ text, cut.room? text = none) → cut.flushes = false →
        ∃ written, whole.2.output = full.text ++ written ∧ (s.writingTo cut).run fuel source =
          (.runtimeError (.output .flushFailed), whole.2.writingTo (cut.append written))) :=
  ⟨run_of_flushes hunit hfull hwhole hends, run_of_not_flushes hunit hfull hwhole hends⟩

/-- A unit that prints two lines, on a sink for six characters and on one that cannot be flushed. -/
theorem run_cut_short_in_second_line :
    let s := Session.new fun _ => 0
    let short : Sink := ⟨"", fun text => some (6 - text.length), true⟩
    let unit := "print nil;print true;"
    ∃ whole, (s.writingTo .endless).run 9 unit = whole ∧ whole.2.output = "nil\ntrue\n" ∧
      (∃ before inside start m, before ++ inside = "nil\ntr" ∧
        Moment.CutAt short .endless before inside m start ∧
        (s.writingTo short).run 9 unit = (.runtimeError (.output .full), { s with machine := m })) ∧
      (s.writingTo (.new none false)).run 9 unit =
        (.runtimeError (.output .flushFailed),
          whole.2.writingTo ((Sink.new none false).append "nil\ntrue\n")) := by
  intro s short unit
  let program : List (Stmt NodeId) := [.print (.literal .nil), .print (.literal (.boolean true))]
  let s' : Session := ⟨{ Machine.new (fun _ => 0) with hops := (∅ : Hops).merge ∅ }, 0⟩
  have hunit : s.unit? unit = some (program, s') := by
    unfold unit
    refine unit?_eq_some_iff.mpr
      ⟨[.print (.literal .nil), .print (.literal (.boolean true))], ?_, rfl, rfl, rfl⟩
    cbv
  have hrun (sink : Sink) := run_of_unit? (unit?_writingTo hunit sink) 9
  have houtput : ((s.writingTo .endless).run 9 unit).2.output = "nil\ntrue\n" := by
    rw [hrun]
    unfold s' program
    decide +kernel
  have hcut : ((s.writingTo short).run 9 unit).2.output = "nil\ntr" := by
    rw [hrun]
    unfold s' program short
    decide +kernel
  have hends : ((s.writingTo .endless).run 9 unit).1 ≠ .unfinished := by
    rw [hrun]
    exact fun h => by cases h
  have hshort := (@run_cut_short short _ _ _ _ _ _ _ hunit Sink.unfailing_endless rfl hends).1 rfl
  have hunflushed := (@run_cut_short (.new none false) _ _ _ _ _ _ _ hunit
    Sink.unfailing_endless rfl hends).2 (fun _ => rfl) rfl
  refine ⟨_, rfl, houtput, ?_, ?_⟩
  · obtain ⟨written, rest, hwhole, hwritten, hcases⟩ := hshort
    rw [hcut, String.empty_append] at hwritten
    subst hwritten
    rcases hcases with ⟨rfl, -⟩ | ⟨before, inside, m, hjoin, ⟨start, -, hstart⟩, hrun⟩
    · rw [houtput] at hwhole
      exact absurd hwhole (by decide)
    · exact ⟨before, inside, start, m, hjoin.symm, hstart, hrun⟩
  · obtain ⟨written, hwhole, hrun⟩ := hunflushed
    rw [houtput] at hwhole
    obtain rfl : "nil\ntrue\n" = written := hwhole.trans (String.empty_append)
    exact hrun

end Session

end Lox
