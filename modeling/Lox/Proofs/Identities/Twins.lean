import Lox.Proofs.Identities.Readers
import Lox.Proofs.Relabelling.Conservation
import Lox.Proofs.Relabelling.Resolver
import Lox.Proofs.Scoping.Table

namespace Lox

/-- The answer with other labels in the functions that it is made of. -/
def Answer.relabel (f : NodeId → NodeId) : Answer → Answer
  | .completed => .completed
  | .value v => .value (v.relabel f)
  | .staticErrors faults => .staticErrors faults
  | .runtimeError fault => .runtimeError fault
  | .unfinished => .unfinished

/-- The second session is the first one with other labels for the known nodes. Different nodes have
different labels, which were all given out before. -/
structure Twins (known : List NodeId) (f : NodeId → NodeId) (s s' : Session) : Prop where
  holds : s.machine.Over known
  machine : s'.machine = s.machine.relabel f s'.machine.hops
  hops : ∀ n ∈ known, s'.machine.hops[f n]? = s.machine.hops[n]?
  old : ∀ n ∈ known, n < s.nextNode
  old' : ∀ n ∈ known, f n < s'.nextNode
  injective : ∀ n ∈ known, ∀ k ∈ known, f n = f k → n = k
  fresh : ∀ n, s'.nextNode ≤ n → s'.machine.hops[n]? = none

theorem twins_new (clock : Nat → Float) (first first' : NodeId) :
    Twins [] id { Session.new clock with nextNode := first }
      { Session.new clock with nextNode := first' } := by
  have hnone : ∀ n : NodeId, (Machine.new clock).hops[n]? = none := fun _ =>
    Std.TreeMap.getElem?_emptyc
  have hnodes : (Machine.new clock).nodes = [] := rfl
  refine ⟨⟨by simp [Session.new, hnodes], fun n _ => hnone n⟩, ?_, by simp, by simp, by simp,
    by simp, fun n _ => hnone n⟩
  exact (Machine.relabel_id (Machine.new clock)).symm

namespace Twins

variable {known : List NodeId} {f : NodeId → NodeId} {s s' : Session}

theorem output (h : Twins known f s s') : s'.output = s.output := by
  rw [Session.output, h.machine]
  rfl

theorem globalNames (h : Twins known f s s') :
    s'.machine.globalNames = s.machine.globalNames := by
  rw [h.machine]
  exact Scopes.names_map _ _ _

theorem exists_relabelling (h : Twins known f s s') :
    ∃ ρ : Relabelling, ρ.before = s.machine.hops ∧ ρ.after = s'.machine.hops ∧
      (∀ n ∈ known, ρ.label n = f n) ∧ s'.machine = ρ.machine s.machine := by
  let label n := if n ∈ known then f n else s'.nextNode + n
  have hlabel : ∀ n ∈ known, label n = f n := fun n hn => if_pos hn
  have hagree : ∀ n, s'.machine.hops[label n]? = s.machine.hops[n]? := by
    intro n
    by_cases hn : n ∈ known
    · rw [hlabel n hn, h.hops n hn]
    · rw [h.holds.hops n hn, show label n = s'.nextNode + n from if_neg hn]
      exact h.fresh _ (Nat.le_add_right _ n)
  refine ⟨⟨label, s.machine.hops, s'.machine.hops, hagree⟩, rfl, rfl, hlabel, ?_⟩
  refine h.machine.trans (Machine.relabel_congr (fun n hn => ?_) _)
  exact (hlabel n (h.holds.nodes n hn)).symm

/-- Identities that were given out to nodes which were dropped make no difference. -/
theorem past (h : Twins known f s s') (built built' : List (Reference NodeId)) :
    Twins known f (s.past built) (s'.past built') where
  holds := h.holds
  machine := h.machine
  hops := h.hops
  old n hn := Nat.lt_of_lt_of_le (h.old n hn) (Nat.le_add_right _ _)
  old' n hn := Nat.lt_of_lt_of_le (h.old' n hn) (Nat.le_add_right _ _)
  injective := h.injective
  fresh n hn := h.fresh n (Nat.le_trans (Nat.le_add_right _ _) hn)

theorem add (h : Twins known f s s') {g : NodeId → NodeId}
    {built built' references references' : List (Reference NodeId)}
    (hbuilt : Consecutive s.nextNode built) (hbuilt' : Consecutive s'.nextNode built')
    (hchosen : Chosen built references) (hchosen' : Chosen built' references')
    (hlabels : references'.map Reference.label = (references.map Reference.label).map g) :
    ∃ f' : NodeId → NodeId, (∀ n ∈ references.map Reference.label, f' n = g n) ∧
      Twins (references.map Reference.label ++ known) f' (s.past built) (s'.past built') := by
  -- the new nodes lie past both counters, and so apart from those that were known
  let f' n := if n ∈ known then f n else g n
  have hbounds : ∀ n ∈ references.map Reference.label,
      s.nextNode ≤ n ∧ n < s.nextNode + built.length := by
    intro n hn
    obtain ⟨r, hr, rfl⟩ := List.mem_map.mp hn
    exact hbuilt.bounds r (hchosen.subset hr)
  have hbounds' : ∀ n ∈ references.map Reference.label,
      s'.nextNode ≤ g n ∧ g n < s'.nextNode + built'.length := by
    intro n hn
    have hmem : g n ∈ references'.map Reference.label := hlabels ▸ List.mem_map_of_mem hn
    obtain ⟨r, hr, hlabel⟩ := List.mem_map.mp hmem
    exact hlabel ▸ hbuilt'.bounds r (hchosen'.subset hr)
  have hunknown : ∀ n ∈ references.map Reference.label, n ∉ known := fun n hn hmem =>
    Nat.not_lt.mpr (hbounds n hn).1 (h.old n hmem)
  have hold : ∀ n ∈ known, f' n = f n := fun n hn => if_pos hn
  have hnew : ∀ n ∈ references.map Reference.label, f' n = g n := fun n hn =>
    if_neg (hunknown n hn)
  have hseparate : ∀ n ∈ known, ∀ k ∈ references.map Reference.label, f' n ≠ f' k := by
    intro n hn k hk
    rw [hold n hn, hnew k hk]
    exact Nat.ne_of_lt (Nat.lt_of_lt_of_le (h.old' n hn) (hbounds' k hk).1)
  have hpast := h.past built built'
  refine ⟨f', hnew, ⟨?_, ?_⟩, ?_, ?_, ?_, ?_, ?_, hpast.fresh⟩
  · exact fun n hn => List.mem_append_right _ (h.holds.nodes n hn)
  · exact fun n hn => h.holds.hops n fun hmem => hn (List.mem_append_right _ hmem)
  · refine h.machine.trans (Machine.relabel_congr (fun n hn => ?_) _)
    exact (hold n (h.holds.nodes n hn)).symm
  · intro n hn
    rcases List.mem_append.mp hn with hn | hn
    · rw [hnew n hn]
      exact (h.fresh _ (hbounds' n hn).1).trans (h.holds.hops n (hunknown n hn)).symm
    · rw [hold n hn]
      exact h.hops n hn
  · intro n hn
    rcases List.mem_append.mp hn with hn | hn
    · exact (hbounds n hn).2
    · exact hpast.old n hn
  · intro n hn
    rcases List.mem_append.mp hn with hn | hn
    · rw [hnew n hn]
      exact (hbounds' n hn).2
    · rw [hold n hn]
      exact hpast.old' n hn
  · intro n hn k hk heq
    rcases List.mem_append.mp hn with hn | hn <;> rcases List.mem_append.mp hk with hk | hk
    · rw [hnew n hn, hnew k hk] at heq
      exact List.inj_on_of_nodup_map (hlabels ▸ hchosen'.nodup) hn hk heq
    · exact absurd heq.symm (hseparate k hk n hn)
    · exact absurd heq (hseparate n hn k hk)
    · rw [hold n hn, hold k hk] at heq
      exact h.injective n hn k hk heq

/-- Twins find the same faults in a program whose nodes they know, and stay twins with the distances
of its names. -/
theorem learn (h : Twins known f s s') {program : List (Stmt NodeId)}
    (hknown : ∀ n ∈ (Stmt.referencesAll program).map Reference.label, n ∈ known)
    (hnodup : ((Stmt.referencesAll program).map Reference.label).Nodup) :
    (s'.resolve (Stmt.relabelAll f program)).reports = (s.resolve program).reports ∧
      Twins known f (s.learn (s.resolve program).hops)
        (s'.learn (s'.resolve (Stmt.relabelAll f program)).hops) := by
  have hnodup' : (((Stmt.referencesAll program).map Reference.label).map f).Nodup :=
    List.Nodup.map_on (fun n hn k hk => h.injective n (hknown n hn) k (hknown k hk)) hnodup
  have hlabels : (Stmt.referencesAll (Stmt.relabelAll f program)).map Reference.label =
      ((Stmt.referencesAll program).map Reference.label).map f := by
    rw [Stmt.referencesAll_relabelAll, map_label_relabel, List.map_map]
    rfl
  have hreports : (s'.resolve (Stmt.relabelAll f program)).reports =
      (s.resolve program).reports := by
    rw [Session.resolve, h.globalNames]
    exact Resolution.reports_relabel f _ program
  have hnone : ∀ n ∉ (Stmt.referencesAll program).map Reference.label,
      (s.resolve program).hops[n]? = none := fun n hn =>
    Option.eq_none_iff_forall_not_mem.mpr fun _ hd => hn (Resolution.mem_labels_of_hops hd)
  have hnone' : ∀ n ∉ ((Stmt.referencesAll program).map Reference.label).map f,
      (s'.resolve (Stmt.relabelAll f program)).hops[n]? = none := fun n hn =>
    Option.eq_none_iff_forall_not_mem.mpr fun _ hd =>
      hn (hlabels ▸ Resolution.mem_labels_of_hops hd)
  have hmachine : ∀ hops : Hops, { s'.machine with hops } = s.machine.relabel f hops :=
    fun hops => congrArg (fun m : Machine => { m with hops }) h.machine
  refine ⟨hreports, ⟨h.holds.nodes, fun n hn => ?_⟩, ?_, ?_, h.old, h.old', h.injective, ?_⟩
  · rw [Session.learn, getElem?_merge, hnone n fun hmem => hn (hknown n hmem)]
    exact h.holds.hops n hn
  · exact hmachine _
  · intro n hn
    rw [Session.learn, Session.learn, getElem?_merge, getElem?_merge, h.hops n hn]
    refine congrArg (Option.or · _) ?_
    by_cases hmem : n ∈ (Stmt.referencesAll program).map Reference.label
    · rw [Session.resolve, h.globalNames]
      exact Resolution.hops_relabel hnodup hnodup' hmem
    · rw [hnone n hmem]
      refine hnone' _ fun hmem' => hmem ?_
      obtain ⟨k, hk, heq⟩ := List.mem_map.mp hmem'
      rwa [← h.injective k (hknown k hk) n hn heq]
  · intro n hn
    rw [Session.learn, getElem?_merge, hnone' n ?_]
    · exact h.fresh n hn
    · intro hmem
      obtain ⟨k, hk, rfl⟩ := List.mem_map.mp hmem
      exact Nat.not_lt.mpr hn (h.old' k (hknown k hk))

theorem conclude (h : Twins known f s s') {α β : Type} {g : α → β} {ρ : Relabelling}
    {nodes : α → List NodeId} {e : Ending α} {answer : α → Answer} {answer' : β → Answer}
    (hlabel : ∀ n ∈ known, ρ.label n = f n) (hafter : ρ.after = s'.machine.hops)
    (he : e.Conserves known s.machine nodes)
    (hanswer : ∀ v, (∀ n ∈ nodes v, n ∈ known) → answer' (g v) = (answer v).relabel f) :
    (s'.conclude answer' (ρ.ending g e)).1 = (s.conclude answer e).1.relabel f ∧
      Twins known f (s.conclude answer e).2 (s'.conclude answer' (ρ.ending g e)).2 := by
  have htwins : ∀ m : Machine, m.Over known → m.hops = s.machine.hops →
      Twins known f { s with machine := m } { s' with machine := ρ.machine m } := by
    intro m hover hhops
    refine ⟨hover, ?_, fun n hn => ?_, h.old, h.old', h.injective, fun n hn => ?_⟩
    · exact Machine.relabel_congr (fun n hn => hlabel n (hover.nodes n hn)) _
    · have hn := h.hops n hn
      rwa [← hafter, ← hhops] at hn
    · exact (congrArg (fun hops : Hops => hops[n]?) hafter).trans (h.fresh n hn)
  cases e with
  | done v m =>
      obtain ⟨hv, hover, hhops⟩ := he
      exact ⟨hanswer v hv, htwins m hover hhops⟩
  | failed fault m => exact ⟨rfl, htwins m he.1 he.2⟩
  | unfinished => exact ⟨rfl, h⟩

/-! ### One text for both -/

/-- Both sessions build trees of one shape for a text that has no fault. -/
theorem build (h : Twins known f s s') (R R' : Reader) {source : String}
    (hread : (readProgram source).reports = []) :
    let read := R.program s.nextNode source
    let read' := R'.program s'.nextNode source
    ∃ f', Stmt.relabelAll f' read.value = read'.value ∧
      Twins ((Stmt.referencesAll read.value).map Reference.label ++ known) f'
        (s.past read.built) (s'.past read'.built) := by
  have hshape := (R.shape_program s.nextNode source hread).trans
    (R'.shape_program s'.nextNode source hread).symm
  have hchosen := R.chosen_program s.nextNode source hread
  obtain ⟨g, htree, hlabels⟩ := Stmt.exists_relabelAll_eq hshape hchosen.nodup
  obtain ⟨f', hf', htwins⟩ := h.add (R.built_program s.nextNode source)
    (R'.built_program s'.nextNode source) hchosen (R'.chosen_program s'.nextNode source hread)
    hlabels
  refine ⟨f', (Stmt.relabelAll_congr fun r hr => ?_).trans htree, htwins⟩
  exact hf' r.label (List.mem_map_of_mem hr)

theorem buildExpression (h : Twins known f s s') (R R' : Reader) {source : String}
    (hread : (readExpression source).reports = []) :
    let read := R.expression s.nextNode source
    let read' := R'.expression s'.nextNode source
    read.value = none ∧ read'.value = none ∨
      ∃ e e' f', read.value = some e ∧ read'.value = some e' ∧ e.relabel f' = e' ∧
        Twins (e.references.map Reference.label ++ known) f'
          (s.past read.built) (s'.past read'.built) := by
  have hshape := (R.shape_expression s.nextNode source hread).trans
    (R'.shape_expression s'.nextNode source hread).symm
  have hchosen := R.chosen_expression s.nextNode source hread
  have hchosen' := R'.chosen_expression s'.nextNode source hread
  dsimp only
  cases hvalue : (R.expression s.nextNode source).value with
  | none =>
      cases hvalue' : (R'.expression s'.nextNode source).value with
      | none => exact .inl ⟨rfl, rfl⟩
      | some e' =>
          rw [hvalue, hvalue'] at hshape
          cases hshape
  | some e =>
      cases hvalue' : (R'.expression s'.nextNode source).value with
      | none =>
          rw [hvalue, hvalue'] at hshape
          cases hshape
      | some e' =>
          rw [hvalue, hvalue'] at hshape
          have hchosen := hchosen e hvalue
          obtain ⟨g, htree, hlabels⟩ :=
            Expr.exists_relabel_eq (Option.some.inj hshape) hchosen.nodup
          obtain ⟨f', hf', htwins⟩ := h.add (R.built_expression s.nextNode source)
            (R'.built_expression s'.nextNode source) hchosen (hchosen' e' hvalue') hlabels
          refine .inr ⟨e, e', f', rfl, rfl, (Expr.relabel_congr fun r hr => ?_).trans htree, htwins⟩
          exact hf' r.label (List.mem_map_of_mem hr)

theorem run (h : Twins known f s s') (R R' : Reader) (fuel : Nat) (source : String) :
    ∃ known' f', (R'.run fuel s' source).1 = (R.run fuel s source).1.relabel f' ∧
      Twins known' f' (R.run fuel s source).2 (R'.run fuel s' source).2 := by
  unfold Reader.run
  dsimp only
  rw [R.reports_program s.nextNode source, R'.reports_program s'.nextNode source]
  cases hread : (readProgram source).reports with
  | cons fault faults => exact ⟨known, f, rfl, h.past _ _⟩
  | nil =>
      obtain ⟨f', htree, htwins⟩ := h.build R R' hread
      have hnew : ∀ r ∈ Stmt.referencesAll (R.program s.nextNode source).value, r.label ∈
          (Stmt.referencesAll (R.program s.nextNode source).value).map Reference.label ++ known :=
        fun r hr => List.mem_append_left _ (List.mem_map_of_mem hr)
      obtain ⟨hfaults, hlearn⟩ := htwins.learn (fun n hn => List.mem_append_left _ hn)
        (R.chosen_program s.nextNode source hread).nodup
      refine ⟨(Stmt.referencesAll (R.program s.nextNode source).value).map Reference.label ++ known,
        f', ?_⟩
      rw [htree] at hfaults hlearn
      simp only [List.isEmpty_nil, Bool.not_true, Bool.false_eq_true, if_false, hfaults]
      split
      · exact ⟨rfl, htwins⟩
      · obtain ⟨ρ, hbefore, hafter, hlabel, hmachine⟩ := hlearn.exists_relabelling
        have hrun := ρ.interpret_machine fuel (R.program s.nextNode source).value hbefore.symm
        rw [Stmt.relabelAll_congr fun r hr => hlabel r.label (hnew r hr), htree,
          ← hmachine] at hrun
        rw [hrun]
        exact hlearn.conclude hlabel hafter (interpret_conserves hlearn.holds hnew fuel)
          fun _ _ => rfl

theorem evaluate (h : Twins known f s s') (R R' : Reader) (fuel : Nat) (source : String) :
    ∃ known' f', (R'.evaluate fuel s' source).1 = (R.evaluate fuel s source).1.relabel f' ∧
      Twins known' f' (R.evaluate fuel s source).2 (R'.evaluate fuel s' source).2 := by
  unfold Reader.evaluate
  dsimp only
  rw [R.reports_expression s.nextNode source, R'.reports_expression s'.nextNode source]
  cases hread : (readExpression source).reports with
  | cons fault faults =>
      refine ⟨known, f, ?_⟩
      cases (R.expression s.nextNode source).value <;>
        cases (R'.expression s'.nextNode source).value <;>
        exact ⟨rfl, h.past _ _⟩
  | nil =>
      rcases h.buildExpression R R' hread with
        ⟨hvalue, hvalue'⟩ | ⟨e, e', f', hvalue, hvalue', htree, htwins⟩
      · rw [hvalue, hvalue']
        exact ⟨known, f, rfl, h.past _ _⟩
      · rw [hvalue, hvalue']
        have hnew : ∀ r ∈ e.references, r.label ∈ e.references.map Reference.label ++ known :=
          fun r hr => List.mem_append_left _ (List.mem_map_of_mem hr)
        obtain ⟨ρ, hbefore, hafter, hlabel, hmachine⟩ := htwins.exists_relabelling
        have hrun := ((Relabelling.allCommute ρ fuel).evaluate e).ending _ hbefore.symm
        rw [Expr.relabel_congr fun r hr => hlabel r.label (hnew r hr), htree, ← hmachine] at hrun
        refine ⟨e.references.map Reference.label ++ known, f', ?_⟩
        dsimp only
        rw [hrun]
        refine htwins.conclude hlabel hafter (evaluate_conserves htwins.holds hnew fuel)
          fun v hv => congrArg Answer.value ?_
        exact Value.relabel_congr fun n hn => hlabel n (hv n hn)

theorem take (h : Twins known f s s') (R R' : Reader) (step : Step) :
    ∃ known' f', (R'.take s' step).1 = (R.take s step).1.relabel f' ∧
      Twins known' f' (R.take s step).2 (R'.take s' step).2 := by
  cases step with
  | run fuel source => exact h.run R R' fuel source
  | evaluate fuel source => exact h.evaluate R R' fuel source
  | writeTo sink =>
      refine ⟨known, f, rfl, ⟨h.holds.nodes, h.holds.hops⟩, ?_, h.hops, h.old, h.old', h.injective,
        h.fresh⟩
      exact congrArg (fun m : Machine => { m with sink }) h.machine

end Twins

end Lox
