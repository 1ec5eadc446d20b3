import Lox.Proofs.Identities.Issuing
import Lox.Proofs.Relabelling.Conservation
import Lox.Proofs.Relabelling.Resolver
import Lox.Proofs.Scoping.Table

/-!
The table of a session, node by node.

Each unit records distances for nodes of its own tree, which no other tree has. What the table of
the session has for a node is what its own unit recorded, from then on and at every moment at which
a run asks for it.
-/

namespace Lox

namespace Reader

variable (R : Reader)

/-- The nodes that are built for the text of a step. -/
def built (s : Session) : Step → List (Reference NodeId)
  | .run _ source => (R.program s.nextNode source).built
  | .evaluate _ source => (R.expression s.nextNode source).built
  | .writeTo _ => []

/-- The program that a step runs. A text with a fault stands for none. -/
def program? (s : Session) : Step → Option (List (Stmt NodeId))
  | .run _ source =>
      let read := R.program s.nextNode source
      if read.reports.isEmpty && (s.resolve read.value).reports.isEmpty then some read.value
      else none
  | _ => none

/-- The expression that a step evaluates. -/
def expression? (s : Session) : Step → Option (Expr NodeId)
  | .evaluate _ source =>
      let read := R.expression s.nextNode source
      match read.value, read.reports with
      | some e, [] => some e
      | _, _ => none
  | _ => none

/-- The references in the tree that a step runs or evaluates. -/
def references (s : Session) (step : Step) : List (Reference NodeId) :=
  (R.program? s step).elim [] Stmt.referencesAll ++ Expr.referencesOption (R.expression? s step)

/-- The distances that the unit of a step records. -/
def table (s : Session) (step : Step) : Hops :=
  (R.program? s step).elim ∅ fun program => (s.resolve program).hops

/-- The moment at which a step begins to run. -/
def start? (s : Session) : Step → Option Moment
  | .run fuel source => (R.program? s (.run fuel source)).map fun program =>
      ⟨fuel, .executeAll program, (s.learn (s.resolve program).hops).machine⟩
  | .evaluate fuel source => (R.expression? s (.evaluate fuel source)).map fun e =>
      ⟨fuel, .evaluate e, s.machine⟩
  | .writeTo _ => none

/-- The step comes to this moment. -/
def Passes (s : Session) (step : Step) (x : Moment) : Prop :=
  ∃ start ∈ R.start? s step, Within start x

/-- The steps in order, each with the session that it was taken in. -/
def history (s : Session) : List Step → List (Session × Step)
  | [] => []
  | step :: steps => (s, step) :: history (R.take s step).2 steps

variable {R}

theorem program?_eq_some_iff {s : Session} {step : Step} {program : List (Stmt NodeId)} :
    R.program? s step = some program ↔
      ∃ fuel source, step = .run fuel source ∧ (R.program s.nextNode source).reports = [] ∧
        (s.resolve program).reports = [] ∧ (R.program s.nextNode source).value = program := by
  cases step with
  | run fuel source =>
      simp only [program?, Option.ite_none_right_eq_some, Bool.and_eq_true, List.isEmpty_iff,
        Option.some.injEq, Step.run.injEq]
      constructor
      · rintro ⟨⟨hread, hresolved⟩, rfl⟩
        exact ⟨fuel, source, ⟨rfl, rfl⟩, hread, hresolved, rfl⟩
      · rintro ⟨_, _, ⟨rfl, rfl⟩, hread, hresolved, rfl⟩
        exact ⟨⟨hread, hresolved⟩, rfl⟩
  | evaluate | writeTo => simp [program?]

theorem expression?_eq_some_iff {s : Session} {step : Step} {e : Expr NodeId} :
    R.expression? s step = some e ↔
      ∃ fuel source, step = .evaluate fuel source ∧
        (R.expression s.nextNode source).reports = [] ∧
        (R.expression s.nextNode source).value = some e := by
  cases step with
  | evaluate fuel source =>
      simp only [expression?, Step.evaluate.injEq]
      constructor
      · intro h
        split at h
        · rename_i hvalue hreports
          exact ⟨fuel, source, ⟨rfl, rfl⟩, hreports, hvalue.trans h⟩
        · cases h
      · rintro ⟨_, _, ⟨rfl, rfl⟩, hreports, hvalue⟩
        rw [hreports, hvalue]
  | run | writeTo => simp [expression?]

/-- The references of a tree are different nodes among those that were built for it. -/
theorem chosen_references (s : Session) (step : Step) :
    Chosen (R.built s step) (R.references s step) := by
  cases hprogram : R.program? s step with
  | some program =>
      obtain ⟨fuel, source, rfl, hreports, -, rfl⟩ := program?_eq_some_iff.mp hprogram
      rw [references, hprogram]
      exact (List.append_nil (Stmt.referencesAll _)).symm ▸
        R.chosen_program s.nextNode source (R.reports_program _ source ▸ hreports)
  | none =>
      rw [references, hprogram]
      cases he : R.expression? s step with
      | none => exact ⟨List.nil_subset _, List.nodup_nil⟩
      | some e =>
          obtain ⟨fuel, source, rfl, hreports, hvalue⟩ := expression?_eq_some_iff.mp he
          exact R.chosen_expression s.nextNode source (R.reports_expression _ source ▸ hreports)
            e hvalue

theorem consecutive_built (s : Session) (step : Step) :
    Consecutive s.nextNode (R.built s step) := by
  cases step with
  | run fuel source => exact R.built_program s.nextNode source
  | evaluate fuel source => exact R.built_expression s.nextNode source
  | writeTo sink => rfl

theorem mem_labels_of_table {s : Session} {step : Step} {n : NodeId} {distance : Nat}
    (h : (R.table s step)[n]? = some distance) :
    n ∈ (R.references s step).map Reference.label := by
  unfold table at h
  cases hprogram : R.program? s step with
  | none =>
      rw [hprogram] at h
      cases h.symm.trans Std.TreeMap.getElem?_emptyc
  | some program =>
      rw [hprogram] at h
      rw [references, hprogram, List.map_append]
      exact List.mem_append_left _ (Resolution.mem_labels_of_hops h)

/-! ### One step -/

theorem take_of_program? {s : Session} {step : Step} {program : List (Stmt NodeId)}
    (h : R.program? s step = some program) :
    ∃ fuel, R.start? s step =
        some ⟨fuel, .executeAll program, (s.learn (s.resolve program).hops).machine⟩ ∧
      R.take s step = ((s.past (R.built s step)).learn (s.resolve program).hops).conclude
        (fun _ => .completed)
        (Machine.interpret fuel program (s.learn (s.resolve program).hops).machine) := by
  obtain ⟨fuel, source, rfl, hread, hresolved, rfl⟩ := program?_eq_some_iff.mp h
  refine ⟨fuel, by rw [start?, h]; rfl, ?_⟩
  have hpast : (s.past (R.built s (.run fuel source))).resolve
      (R.program s.nextNode source).value = s.resolve (R.program s.nextNode source).value := rfl
  have hbuilt : (R.program s.nextNode source).built = R.built s (.run fuel source) := rfl
  dsimp only [take, run]
  rw [hbuilt, hpast, hread, hresolved]
  rfl

theorem take_of_expression? {s : Session} {step : Step} {e : Expr NodeId}
    (h : R.expression? s step = some e) :
    ∃ fuel, R.start? s step = some ⟨fuel, .evaluate e, s.machine⟩ ∧
      R.take s step =
        (s.past (R.built s step)).conclude .value (Lox.evaluate fuel e s.machine) := by
  obtain ⟨fuel, source, rfl, hreports, hvalue⟩ := expression?_eq_some_iff.mp h
  refine ⟨fuel, by rw [start?, h]; rfl, ?_⟩
  dsimp only [take, evaluate]
  rw [hreports, hvalue]
  rfl

theorem take_of_none {s : Session} {step : Step} (hprogram : R.program? s step = none)
    (hexpression : R.expression? s step = none) :
    R.start? s step = none ∧
      ∃ sink, (R.take s step).2 = (s.past (R.built s step)).writingTo sink := by
  cases step with
  | run fuel source =>
      refine ⟨by rw [start?, hprogram]; rfl, s.machine.sink, ?_⟩
      have hpast : (s.past (R.program s.nextNode source).built).resolve
          (R.program s.nextNode source).value = s.resolve (R.program s.nextNode source).value := rfl
      simp only [program?, ite_eq_right_iff, reduceCtorEq, imp_false, Bool.and_eq_true,
        not_and] at hprogram
      dsimp only [take, run]
      rw [hpast]
      split
      · rfl
      · rename_i hread
        rw [if_pos (by simpa using hprogram (by simpa using hread))]
        rfl
  | evaluate fuel source =>
      refine ⟨by rw [start?, hexpression]; rfl, s.machine.sink, ?_⟩
      dsimp only [expression?] at hexpression
      dsimp only [take, evaluate]
      split
      · rename_i hvalue hreports
        simp [hvalue, hreports] at hexpression
      · rfl
  | writeTo sink => exact ⟨rfl, sink, rfl⟩

variable {s : Session} {known : List NodeId}

theorem conclude_conserves {α : Type} (s : Session) (answer : α → Answer)
    {nodes : α → List NodeId} {e : Ending α} (hover : s.machine.Over known)
    (he : e.Conserves known s.machine nodes) :
    (s.conclude answer e).2.nextNode = s.nextNode ∧
      (s.conclude answer e).2.machine.Over known ∧
      (s.conclude answer e).2.machine.hops = s.machine.hops := by
  cases e with
  | done v m => exact ⟨rfl, he.2.1, he.2.2⟩
  | failed fault m => exact ⟨rfl, he.1, he.2⟩
  | unfinished => exact ⟨rfl, hover, rfl⟩

/-- The nodes that are known once the tree of a step is. -/
abbrev knownAfter (R : Reader) (known : List NodeId) (s : Session) (step : Step) : List NodeId :=
  known ++ (R.references s step).map Reference.label

theorem mem_knownAfter_of_program? {step : Step} {program : List (Stmt NodeId)}
    (h : R.program? s step = some program) :
    ∀ r ∈ Stmt.referencesAll program, r.label ∈ R.knownAfter known s step := by
  intro r hr
  rw [knownAfter, references, h, List.map_append]
  exact List.mem_append_right _ (List.mem_append_left _ (List.mem_map_of_mem hr))

theorem mem_knownAfter_of_expression? {step : Step} {e : Expr NodeId}
    (h : R.expression? s step = some e) :
    ∀ r ∈ e.references, r.label ∈ R.knownAfter known s step := by
  intro r hr
  rw [knownAfter, references, h, List.map_append]
  exact List.mem_append_right _ (List.mem_append_right _ (List.mem_map_of_mem hr))

theorem over_learn (hover : s.machine.Over known) {step : Step} {program : List (Stmt NodeId)}
    (h : R.program? s step = some program) :
    (s.learn (s.resolve program).hops).machine.Over (R.knownAfter known s step) where
  nodes n hn := List.mem_append_left _ (hover.nodes n hn)
  hops n hn := by
    rw [Session.learn, getElem?_merge, hover.hops n fun hmem => hn (List.mem_append_left _ hmem),
      Option.or_none]
    refine Option.eq_none_iff_forall_not_mem.mpr fun distance hdistance => hn ?_
    obtain ⟨r, hr, rfl⟩ := List.mem_map.mp (Resolution.mem_labels_of_hops hdistance)
    exact mem_knownAfter_of_program? h r hr

theorem take_conserves (hover : s.machine.Over known) (step : Step) :
    (R.take s step).2.nextNode = s.nextNode + (R.built s step).length ∧
      (R.take s step).2.machine.Over (R.knownAfter known s step) ∧
      ∀ n : NodeId, (R.take s step).2.machine.hops[n]? =
        (R.table s step)[n]?.or s.machine.hops[n]? := by
  have hbefore : s.machine.Over (R.knownAfter known s step) :=
    hover.mono (List.subset_append_left _ _)
  cases hprogram : R.program? s step with
  | some program =>
      obtain ⟨fuel, -, htake⟩ := take_of_program? hprogram
      have hlearn := over_learn hover hprogram
      obtain ⟨hnext, hafter, hhops⟩ := conclude_conserves
        ((s.past (R.built s step)).learn (s.resolve program).hops) (fun _ => .completed) hlearn
        (interpret_conserves hlearn (mem_knownAfter_of_program? hprogram) fuel)
      rw [← htake] at hnext hafter hhops
      refine ⟨hnext, hafter, fun n => ?_⟩
      rw [hhops, table, hprogram]
      exact getElem?_merge _ _ n
  | none =>
      have htable : ∀ n : NodeId, (R.table s step)[n]? = none := by
        intro n
        rw [table, hprogram]
        exact Std.TreeMap.getElem?_emptyc
      cases hexpression : R.expression? s step with
      | some e =>
          obtain ⟨fuel, -, htake⟩ := take_of_expression? hexpression
          obtain ⟨hnext, hafter, hhops⟩ := conclude_conserves (s.past (R.built s step)) .value
            hbefore (evaluate_conserves hbefore (mem_knownAfter_of_expression? hexpression) fuel)
          rw [← htake] at hnext hafter hhops
          refine ⟨hnext, hafter, fun n => ?_⟩
          rw [hhops, htable n, Option.none_or]
          rfl
      | none =>
          obtain ⟨-, sink, htake⟩ := take_of_none hprogram hexpression
          rw [htake]
          refine ⟨rfl, ⟨hbefore.nodes, hbefore.hops⟩, fun n => ?_⟩
          rw [htable n, Option.none_or]
          rfl

/-- A run asks for the distances of nodes that are known once the tree of its step is, in the table
that the session has afterwards. -/
theorem Passes.node_mem (hover : s.machine.Over known) {step : Step} {x : Moment}
    (h : R.Passes s step x) :
    ∀ n ∈ x.task.node?, n ∈ R.knownAfter known s step ∧
      x.machine.hops[n]? = (R.take s step).2.machine.hops[n]? := by
  obtain ⟨start, hstart, hwithin⟩ := h
  obtain ⟨-, -, hhops⟩ := take_conserves hover step
  have hbefore : s.machine.Over (R.knownAfter known s step) :=
    hover.mono (List.subset_append_left _ _)
  cases hprogram : R.program? s step with
  | some program =>
      obtain ⟨fuel, hsome, -⟩ := take_of_program? hprogram
      obtain rfl := Option.some.inj (hstart.symm.trans hsome)
      have hlearn := over_learn hover hprogram
      obtain ⟨hmem, hsame⟩ := hwithin.node_mem hlearn (congrArg Task.executeAll
        (Stmt.relabelAll_eq_self_iff.mpr fun r hr => Relabelling.label_aside_iff.mpr
          (mem_knownAfter_of_program? hprogram r hr)))
      intro n hn
      refine ⟨hmem n hn, ?_⟩
      rw [hsame, hhops n, table, hprogram]
      exact getElem?_merge _ _ n
  | none =>
      cases hexpression : R.expression? s step with
      | some e =>
          obtain ⟨fuel, hsome, -⟩ := take_of_expression? hexpression
          obtain rfl := Option.some.inj (hstart.symm.trans hsome)
          obtain ⟨hmem, hsame⟩ := hwithin.node_mem hbefore (congrArg Task.evaluate
            (Expr.relabel_eq_self_iff.mpr fun r hr => Relabelling.label_aside_iff.mpr
              (mem_knownAfter_of_expression? hexpression r hr)))
          intro n hn
          refine ⟨hmem n hn, ?_⟩
          rw [hsame, hhops n, table, hprogram]
          dsimp only [Option.elim_none]
          rw [Std.TreeMap.getElem?_emptyc, Option.none_or]
      | none =>
          obtain ⟨hnone, -⟩ := take_of_none hprogram hexpression
          cases hstart.symm.trans hnone

/-! ### Whole sessions -/

/-- What is so of a session after a history. Its counter has gone past all identities, its machine
holds nodes of trees that it ran, and its table has for each node what the unit of the node
recorded. -/
structure Recorded (R : Reader) (first : NodeId) (history : List (Session × Step)) (s : Session) :
    Prop where
  consecutive : Consecutive first (history.flatMap fun entry => R.built entry.1 entry.2)
  nextNode : s.nextNode =
    first + (history.flatMap fun entry => R.built entry.1 entry.2).length
  holds : s.machine.Over
    ((history.flatMap fun entry => R.references entry.1 entry.2).map Reference.label)
  table : ∀ entry ∈ history, ∀ r ∈ R.built entry.1 entry.2,
    s.machine.hops[r.label]? = (R.table entry.1 entry.2)[r.label]?

theorem recorded_new (R : Reader) (clock : Nat → Float) (first : NodeId) :
    R.Recorded first [] { Session.new clock with nextNode := first } where
  consecutive := rfl
  nextNode := rfl
  holds := ⟨fun n hn => absurd hn List.not_mem_nil, fun n _ => Std.TreeMap.getElem?_emptyc⟩
  table := by simp

section

variable {first : NodeId} {past : List (Session × Step)}

theorem Recorded.label_lt (h : R.Recorded first past s) {entry : Session × Step}
    (hentry : entry ∈ past) {r : Reference NodeId} (hr : r ∈ R.built entry.1 entry.2) :
    r.label < s.nextNode := by
  rw [h.nextNode]
  exact (h.consecutive.bounds r (List.mem_flatMap.mpr ⟨entry, hentry, hr⟩)).2

theorem Recorded.fresh (h : R.Recorded first past s) {n : NodeId} (hn : s.nextNode ≤ n) :
    s.machine.hops[n]? = none := by
  refine h.holds.hops n fun hmem => ?_
  obtain ⟨r, hr, rfl⟩ := List.mem_map.mp hmem
  obtain ⟨entry, hentry, hr⟩ := List.mem_flatMap.mp hr
  have hbuilt := (R.chosen_references entry.1 entry.2).subset hr
  exact Nat.not_lt.mpr hn (h.label_lt hentry hbuilt)

theorem table_eq_none_of_lt (R : Reader) (s : Session) (step : Step) {n : NodeId}
    (hn : n < s.nextNode) : (R.table s step)[n]? = none := by
  refine Option.eq_none_iff_forall_not_mem.mpr fun distance hdistance => ?_
  obtain ⟨r, hr, rfl⟩ := List.mem_map.mp (mem_labels_of_table hdistance)
  have hbuilt := (R.chosen_references s step).subset hr
  exact Nat.not_lt.mpr ((R.consecutive_built s step).bounds r hbuilt).1 hn

theorem Recorded.step (h : R.Recorded first past s) (step : Step) :
    R.Recorded first (past ++ [(s, step)]) (R.take s step).2 := by
  obtain ⟨hnext, hover, hhops⟩ := take_conserves h.holds step
  have hnew := R.consecutive_built s step
  have hbuilt : (past ++ [(s, step)]).flatMap (fun entry => R.built entry.1 entry.2) =
      past.flatMap (fun entry => R.built entry.1 entry.2) ++ R.built s step := by
    rw [List.flatMap_append, List.flatMap_singleton]
  refine ⟨?_, ?_, ?_, ?_⟩
  · rw [hbuilt]
    exact h.consecutive.append (h.nextNode ▸ hnew)
  · rw [hbuilt, hnext, h.nextNode, List.length_append, Nat.add_assoc]
  · rw [List.flatMap_append, List.flatMap_singleton, List.map_append]
    exact hover
  · intro entry hentry r hr
    rw [hhops]
    rcases List.mem_append.mp hentry with hentry | hentry
    -- the unit has nothing for older nodes, and the table had nothing for those of the unit
    · rw [R.table_eq_none_of_lt s step (h.label_lt hentry hr), Option.none_or]
      exact h.table entry hentry r hr
    · obtain rfl := List.mem_singleton.mp hentry
      rw [h.fresh (hnew.bounds r hr).1, Option.or_none]

theorem Recorded.run (h : R.Recorded first past s) (steps : List Step) :
    R.Recorded first (past ++ R.history s steps) (R.after s steps) := by
  induction steps generalizing past s with
  | nil => exact (List.append_nil past).symm ▸ h
  | cons step steps ih =>
      have hrest := ih (h.step step)
      rwa [List.append_assoc] at hrest

theorem Recorded.exists_unit (h : R.Recorded first past s) {n : NodeId}
    (hn : n ∈ (past.flatMap fun entry => R.references entry.1 entry.2).map Reference.label) :
    ∃ entry ∈ past, (∃ r ∈ R.references entry.1 entry.2, r.label = n) ∧
      s.machine.hops[n]? = (R.table entry.1 entry.2)[n]? := by
  obtain ⟨r, hr, rfl⟩ := List.mem_map.mp hn
  obtain ⟨entry, hentry, hr⟩ := List.mem_flatMap.mp hr
  have hbuilt := (R.chosen_references entry.1 entry.2).subset hr
  exact ⟨entry, hentry, ⟨r, hr, rfl⟩, h.table entry hentry r hbuilt⟩

/-- The table of a session only gains entries. -/
theorem Recorded.gains (h : R.Recorded first past s) (step : Step) (n : NodeId) :
    (R.take s step).2.machine.hops[n]? = s.machine.hops[n]?.or (R.table s step)[n]? := by
  obtain ⟨-, -, hhops⟩ := take_conserves h.holds step
  rw [hhops]
  rcases Nat.lt_or_ge n s.nextNode with hn | hn
  · rw [R.table_eq_none_of_lt s step hn, Option.none_or, Option.or_none]
  · rw [h.fresh hn, Option.none_or, Option.or_none]

end

/-- What a session and its table make of the nodes that are built for a list of steps. -/
structure KeepsIdentities (R : Reader) (s : Session) (steps : List Step) : Prop where
  /-- No two nodes have one identity, whether or not they are part of a tree that was run. -/
  distinct : (((R.history s steps).flatMap fun entry => R.built entry.1 entry.2).map
    Reference.label).Nodup
  /-- A unit finds distances for nodes of its own tree, also if it is at fault against the rules of
  scopes. -/
  own : ∀ s' fuel source, (s', Step.run fuel source) ∈ R.history s steps →
    let read := R.program s'.nextNode source
    read.reports = [] → ∀ (n : NodeId) (distance : Nat),
      (s'.resolve read.value).hops[n]? = some distance →
        ∃ r ∈ Stmt.referencesAll read.value, r ∈ read.built ∧ r.label = n
  /-- One more step adds what its unit records, and leaves all that was there. -/
  gains : ∀ (step : Step) (n : NodeId),
    (R.take (R.after s steps) step).2.machine.hops[n]? =
      (R.after s steps).machine.hops[n]?.or (R.table (R.after s steps) step)[n]?
  /-- For a node of any tree the table has what the unit of that tree recorded. -/
  recorded : ∀ entry ∈ R.history s steps, ∀ r ∈ R.built entry.1 entry.2,
    (R.after s steps).machine.hops[r.label]? = (R.table entry.1 entry.2)[r.label]?
  /-- So it is for the nodes of all functions that the session holds. -/
  held : ∀ n ∈ (R.after s steps).machine.nodes, ∃ entry ∈ R.history s steps,
    (∃ r ∈ R.references entry.1 entry.2, r.label = n) ∧
      (R.after s steps).machine.hops[n]? = (R.table entry.1 entry.2)[n]?
  /-- Nothing is recorded for a text that is evaluated. -/
  evaluated : ∀ s' fuel source, (s', Step.evaluate fuel source) ∈ R.history s steps →
    ∀ r ∈ R.built s' (.evaluate fuel source), (R.after s steps).machine.hops[r.label]? = none
  /-- Whenever a distance is asked for in the course of one more step, it is for a node of that
  step or of one before, and it is the one that the unit of the node recorded. -/
  asked : ∀ step x, R.Passes (R.after s steps) step x → ∀ n ∈ x.task.node?,
    ∃ entry ∈ R.history s steps ++ [(R.after s steps, step)],
      (∃ r ∈ R.references entry.1 entry.2, r.label = n) ∧
        x.machine.hops[n]? = (R.table entry.1 entry.2)[n]?

theorem Recorded.keepsIdentities (h : R.Recorded first [] s) (steps : List Step) :
    R.KeepsIdentities s steps := by
  have hrun := h.run steps
  rw [List.nil_append] at hrun
  refine ⟨hrun.consecutive.chosen.nodup, ?_, hrun.gains, hrun.table,
    fun n hn => hrun.exists_unit (hrun.holds.nodes n hn), ?_, ?_⟩
  · intro s' fuel source _ read hreports n distance hdistance
    obtain ⟨r, hr, hlabel⟩ := List.mem_map.mp (Resolution.mem_labels_of_hops hdistance)
    have hchosen := R.chosen_program s'.nextNode source (R.reports_program _ source ▸ hreports)
    exact ⟨r, hr, hchosen.subset hr, hlabel⟩
  · intro s' fuel source hentry r hr
    rw [hrun.table _ hentry r hr]
    exact Std.TreeMap.getElem?_emptyc
  · intro step x hpasses n hn
    obtain ⟨hmem, hhops⟩ := hpasses.node_mem hrun.holds n hn
    rw [knownAfter, ← List.map_append, ← List.flatMap_singleton
      (fun entry => R.references entry.1 entry.2) (R.after s steps, step),
      ← List.flatMap_append] at hmem
    rw [hhops]
    exact (hrun.step step).exists_unit hmem

/-! ### Numbering afterwards -/

theorem start?_numbering : numbering.start? = Session.start? := by
  funext s step
  cases step with
  | run fuel source =>
      have hvalue : (numbering.program s.nextNode source).value =
          (s.number (readProgram source).value).1 := rfl
      have hreports : (numbering.program s.nextNode source).reports =
          (readProgram source).reports := rfl
      have hresolve : ∀ tree program, (s.number tree).2.resolve program = s.resolve program :=
        fun _ _ => rfl
      dsimp only [start?, Session.start?, program?, Session.unit?]
      rw [hvalue, hreports, hresolve]
      split <;> rfl
  | evaluate fuel source =>
      have hvalue : (numbering.expression s.nextNode source).value =
          (Expr.numberedOption s.nextNode (readExpression source).value).1 := rfl
      have hreports : (numbering.expression s.nextNode source).reports =
          (readExpression source).reports := rfl
      dsimp only [start?, Session.start?, expression?, Session.expression?]
      rw [hvalue, hreports]
      cases (readExpression source).value with
      | none => rfl
      | some e => cases (readExpression source).reports <;> rfl
  | writeTo sink => rfl

/-- A session keeps the identities of its nodes apart, from any first one on, whether it numbers
trees that have no fault or gives identities to all nodes as they are read. It is the first that
`Session.take` does. -/
theorem keepsIdentities_new (clock : Nat → Float) (first : NodeId) (steps : List Step) :
    issuing.KeepsIdentities { Session.new clock with nextNode := first } steps ∧
      numbering.KeepsIdentities { Session.new clock with nextNode := first } steps ∧
      numbering.take = Session.take ∧ numbering.start? = Session.start? :=
  ⟨(recorded_new issuing clock first).keepsIdentities steps,
    (recorded_new numbering clock first).keepsIdentities steps,
    take_numbering, start?_numbering⟩

end Reader

end Lox
