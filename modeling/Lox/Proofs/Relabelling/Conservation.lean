import Lox.Proofs.Relabelling.Nodes
import Lox.Proofs.Relabelling.Runs
import Mathlib.Algebra.Order.BigOperators.Group.List
import Mathlib.Algebra.Order.Ring.Nat

namespace Lox

namespace Relabelling

variable {α : Type} {ρ : Relabelling} {m : Machine}

/-- The relabelling leaves the machine alone, which has the table that it starts from. -/
structure Fixes (ρ : Relabelling) (m : Machine) : Prop where
  machine : ρ.machine m = m
  hops : m.hops = ρ.before

theorem Fixes.done {g : α → α} {r : Run α} {v : α} {m' : Machine} (hm : ρ.Fixes m)
    (hr : ρ.Commutes g r r) (h : r m = .done v m') : g v = v ∧ ρ.Fixes m' := by
  have hending := hr.ending m hm.hops
  have hresumes := hr.resumes m
  rw [hm.machine, h] at hending
  rw [h] at hresumes
  simp only [ending, Ending.done.injEq] at hending
  exact ⟨hending.1.symm, hending.2.symm, hresumes.hops.trans hm.hops⟩

theorem Fixes.failed {g : α → α} {r : Run α} {fault : Diagnostic} {m' : Machine} (hm : ρ.Fixes m)
    (hr : ρ.Commutes g r r) (h : r m = .failed fault m') : ρ.Fixes m' := by
  have hending := hr.ending m hm.hops
  have hresumes := hr.resumes m
  rw [hm.machine, h] at hending
  rw [h] at hresumes
  simp only [ending, Ending.failed.injEq, true_and] at hending
  exact ⟨hending.symm, hresumes.hops.trans hm.hops⟩

section

variable {n : Nat} {v : Value} {m' : Machine}

theorem Fixes.evaluate {e : Expr NodeId} (hm : ρ.Fixes m) (he : e.relabel ρ.label = e)
    (h : evaluate n e m = .done v m') : v.relabel ρ.label = v ∧ ρ.Fixes m' := by
  have hr := (allCommute ρ n).evaluate e
  rw [he] at hr
  exact hm.done hr h

theorem Fixes.evaluateAll {es : List (Expr NodeId)} {vs : List Value} (hm : ρ.Fixes m)
    (hes : Expr.relabelAll ρ.label es = es) (h : evaluateAll n es m = .done vs m') :
    vs.map (Value.relabel ρ.label) = vs ∧ ρ.Fixes m' := by
  have hr := (allCommute ρ n).evaluateAll es
  rw [hes] at hr
  exact hm.done hr h

theorem Fixes.execute {s : Stmt NodeId} {flow : Flow} (hm : ρ.Fixes m)
    (hs : s.relabel ρ.label = s) (h : execute n s m = .done flow m') : ρ.Fixes m' := by
  have hr := (allCommute ρ n).execute s
  rw [hs] at hr
  exact (hm.done hr h).2

theorem Fixes.countCall (hm : ρ.Fixes m) : ρ.Fixes m.countCall :=
  ⟨congrArg Machine.countCall hm.machine, hm.hops⟩

theorem Fixes.addInstance (hm : ρ.Fixes m) : ρ.Fixes m.addInstance := by
  have hadd : ρ.machine m.addInstance = (ρ.machine m).addInstance := by
    simp [Machine.relabel, Machine.addInstance, Bindings.map_empty]
  exact ⟨by rw [hadd, hm.machine], hm.hops⟩

theorem Fixes.enterBlock (hm : ρ.Fixes m) : ρ.Fixes m.enterBlock := by
  have henter : ρ.machine m.enterBlock = (ρ.machine m).enterBlock := by
    simp [Machine.relabel, Machine.enterBlock]
  exact ⟨by rw [henter, hm.machine], hm.hops⟩

theorem Fixes.enterCall {r : Routine} {vs : List Value} (hm : ρ.Fixes m)
    (hvs : vs.map (Value.relabel ρ.label) = vs) : ρ.Fixes (m.enterCall r vs) := by
  have henter : ρ.machine (m.enterCall r vs) =
      (ρ.machine m).enterCall r (vs.map (Value.relabel ρ.label)) := by
    simp [Machine.relabel, Machine.enterCall, Scopes.map_defineAll]
  exact ⟨by rw [henter, hm.machine, hvs], hm.hops⟩

theorem Fixes.bind {r : Routine} (hm : ρ.Fixes m) (hv : v.relabel ρ.label = v) :
    ρ.Fixes (m.bind r v) := by
  have hbind : ρ.machine (m.bind r v) = (ρ.machine m).bind r (v.relabel ρ.label) := by
    simp [Machine.relabel, Machine.bind]
  exact ⟨by rw [hbind, hm.machine, hv], hm.hops⟩

theorem method_fixed {c : Class} {name : String} {r : Routine} (hc : c.relabel ρ.label = c)
    (h : c.methods.find? name = some r) : r.relabel ρ.label = r := by
  have hfind := congrArg (fun c : Class => c.methods.find? name) hc
  simpa [Class.relabel, h] using hfind

end

end Relabelling

/-- The task with other labels in what it runs and in its values. -/
def Task.relabel (f : NodeId → NodeId) : Task → Task
  | .evaluate e => .evaluate (e.relabel f)
  | .evaluateAll es => .evaluateAll (Expr.relabelAll f es)
  | .callValue callee paren arguments =>
      .callValue (callee.relabel f) paren (arguments.map (Value.relabel f))
  | .invoke callee arguments => .invoke (callee.relabel f) (arguments.map (Value.relabel f))
  | .runRoutine r arguments => .runRoutine (r.relabel f) (arguments.map (Value.relabel f))
  | .execute s => .execute (s.relabel f)
  | .executeAll ss => .executeAll (Stmt.relabelAll f ss)
  | .lookUp node name => .lookUp (f node) name
  | .assign node name value => .assign (f node) name (value.relabel f)
  | .bindMethod r receiver => .bindMethod (r.relabel f) (receiver.relabel f)

/-- The relabelling leaves a moment alone. -/
structure Relabelling.FixesMoment (ρ : Relabelling) (x : Moment) : Prop where
  task : x.task.relabel ρ.label = x.task
  machine : ρ.Fixes x.machine

section

variable {ρ : Relabelling} {n : Nat} {m : Machine} {y : Moment}

theorem fixes_of_expression {e : Expr NodeId} (h : Part ⟨n + 1, .evaluate e, m⟩ y)
    (he : e.relabel ρ.label = e) (hm : ρ.Fixes m) : ρ.FixesMoment y := by
  cases h with
  | grouping =>
      simp only [Expr.relabel, Expr.grouping.injEq] at he
      exact ⟨congrArg Task.evaluate he, hm⟩
  | operand =>
      simp only [Expr.relabel, Expr.unary.injEq, true_and] at he
      exact ⟨congrArg Task.evaluate he, hm⟩
  | left | deciding =>
      simp only [Expr.relabel, Expr.binary.injEq, Expr.logical.injEq, true_and] at he
      exact ⟨congrArg Task.evaluate he.1, hm⟩
  | right h | undecided h =>
      simp only [Expr.relabel, Expr.binary.injEq, Expr.logical.injEq, true_and] at he
      exact ⟨congrArg Task.evaluate he.2, (hm.evaluate he.1 h).2⟩
  | var | this =>
      simp only [Expr.relabel, Expr.var.injEq, Expr.this.injEq, and_true] at he
      exact ⟨congrArg (Task.lookUp · _) he, hm⟩
  | assigned =>
      simp only [Expr.relabel, Expr.assign.injEq, true_and] at he
      exact ⟨congrArg Task.evaluate he.2, hm⟩
  | assign h =>
      simp only [Expr.relabel, Expr.assign.injEq, true_and] at he
      obtain ⟨hv, hm'⟩ := hm.evaluate he.2 h
      exact ⟨by rw [Task.relabel, he.1, hv], hm'⟩
  | callee =>
      simp only [Expr.relabel, Expr.call.injEq, true_and] at he
      exact ⟨congrArg Task.evaluate he.1, hm⟩
  | arguments h =>
      simp only [Expr.relabel, Expr.call.injEq, true_and] at he
      exact ⟨congrArg Task.evaluateAll he.2, (hm.evaluate he.1 h).2⟩
  | call h hs =>
      simp only [Expr.relabel, Expr.call.injEq, true_and] at he
      obtain ⟨hv, hm'⟩ := hm.evaluate he.1 h
      obtain ⟨hvs, hm''⟩ := hm'.evaluateAll he.2 hs
      exact ⟨by rw [Task.relabel, hv, hvs], hm''⟩
  | object =>
      simp only [Expr.relabel, Expr.get.injEq, and_true] at he
      exact ⟨congrArg Task.evaluate he, hm⟩
  | method h _ hmethod =>
      simp only [Expr.relabel, Expr.get.injEq, and_true] at he
      obtain ⟨hv, hm'⟩ := hm.evaluate he h
      have hc := hv
      simp only [Value.relabel, Value.instance_.injEq, true_and] at hc
      exact ⟨by rw [Task.relabel, hv, Relabelling.method_fixed hc hmethod], hm'⟩
  | holder =>
      simp only [Expr.relabel, Expr.set.injEq, true_and] at he
      exact ⟨congrArg Task.evaluate he.1, hm⟩
  | held h =>
      simp only [Expr.relabel, Expr.set.injEq, true_and] at he
      exact ⟨congrArg Task.evaluate he.2, (hm.evaluate he.1 h).2⟩

theorem fixes_of_expressions {es : List (Expr NodeId)} (h : Part ⟨n + 1, .evaluateAll es, m⟩ y)
    (hes : Expr.relabelAll ρ.label es = es) (hm : ρ.Fixes m) : ρ.FixesMoment y := by
  cases h with
  | firstOf =>
      simp only [Expr.relabelAll, List.cons.injEq] at hes
      exact ⟨congrArg Task.evaluate hes.1, hm⟩
  | othersOf h =>
      simp only [Expr.relabelAll, List.cons.injEq] at hes
      exact ⟨congrArg Task.evaluateAll hes.2, (hm.evaluate hes.1 h).2⟩

theorem fixes_of_invocation {callee : Value} {vs : List Value}
    (h : Part ⟨n + 1, .invoke callee vs, m⟩ y) (hcallee : callee.relabel ρ.label = callee)
    (hvs : vs.map (Value.relabel ρ.label) = vs) (hm : ρ.Fixes m) : ρ.FixesMoment y := by
  cases h with
  | function =>
      simp only [Value.relabel, Value.function.injEq] at hcallee
      have hr : Routine.relabel ρ.label _ = _ := congrArg Closure.routine hcallee
      exact ⟨by rw [Task.relabel, hr, hvs], hm⟩
  | receiver h =>
      simp only [Value.relabel, Value.class_.injEq] at hcallee
      have hr := Relabelling.method_fixed hcallee h
      exact ⟨by rw [Task.relabel, Value.relabel, hcallee, hr], hm.addInstance⟩
  | initializer h =>
      simp only [Value.relabel, Value.class_.injEq] at hcallee
      have hr := Relabelling.method_fixed hcallee h
      have hinstance : ∀ inst, Value.relabel ρ.label (.instance_ inst _) = .instance_ inst _ :=
        fun inst => congrArg (Value.instance_ inst) hcallee
      refine ⟨?_, hm.addInstance.bind (hinstance _)⟩
      have hdeclaration := congrArg Routine.declaration hr
      simp only [Routine.relabel] at hdeclaration
      simp only [Task.relabel, Routine.relabel, hdeclaration, hvs]

theorem fixes_of_statement {s : Stmt NodeId} (h : Part ⟨n + 1, .execute s, m⟩ y)
    (hs : s.relabel ρ.label = s) (hm : ρ.Fixes m) : ρ.FixesMoment y := by
  cases h with
  | expression | print =>
      simp only [Stmt.relabel, Stmt.expression.injEq, Stmt.print.injEq] at hs
      exact ⟨congrArg Task.evaluate hs, hm⟩
  | initial | answer =>
      simp only [Stmt.relabel, Expr.relabelOption, Stmt.var.injEq, Stmt.ret.injEq, true_and,
        Option.some.injEq] at hs
      exact ⟨congrArg Task.evaluate hs, hm⟩
  | block =>
      simp only [Stmt.relabel, Stmt.block.injEq] at hs
      exact ⟨congrArg Task.executeAll hs, hm.enterBlock⟩
  | @condition _ _ _ _ other =>
      cases other <;> simp only [Stmt.relabel, Stmt.branch.injEq] at hs <;>
        exact ⟨congrArg Task.evaluate hs.1, hm⟩
  | @consequent _ _ _ _ _ other _ h _ =>
      cases other <;> simp only [Stmt.relabel, Stmt.branch.injEq] at hs <;>
        exact ⟨congrArg Task.execute hs.2.1, (hm.evaluate hs.1 h).2⟩
  | alternative h _ =>
      simp only [Stmt.relabel, Stmt.branch.injEq, Option.some.injEq] at hs
      exact ⟨congrArg Task.execute hs.2.2, (hm.evaluate hs.1 h).2⟩
  | loopCondition =>
      simp only [Stmt.relabel, Stmt.loop.injEq] at hs
      exact ⟨congrArg Task.evaluate hs.1, hm⟩
  | loopBody h _ =>
      simp only [Stmt.relabel, Stmt.loop.injEq] at hs
      exact ⟨congrArg Task.execute hs.2, (hm.evaluate hs.1 h).2⟩
  | loopAgain h _ hbody =>
      have hloop := hs
      simp only [Stmt.relabel, Stmt.loop.injEq] at hloop
      exact ⟨congrArg Task.execute hs, (hm.evaluate hloop.1 h).2.execute hloop.2 hbody⟩

theorem fixes_of_statements {ss : List (Stmt NodeId)} (h : Part ⟨n + 1, .executeAll ss, m⟩ y)
    (hss : Stmt.relabelAll ρ.label ss = ss) (hm : ρ.Fixes m) : ρ.FixesMoment y := by
  cases h with
  | first =>
      simp only [Stmt.relabelAll, List.cons.injEq] at hss
      exact ⟨congrArg Task.execute hss.1, hm⟩
  | others h =>
      simp only [Stmt.relabelAll, List.cons.injEq] at hss
      exact ⟨congrArg Task.executeAll hss.2, hm.execute hss.1 h⟩

end

/-- What is left alone comes to what is left alone. -/
theorem Part.fixes {ρ : Relabelling} {x y : Moment} (h : Part x y) (hx : ρ.FixesMoment x) :
    ρ.FixesMoment y := by
  obtain ⟨fuel, task, m⟩ := x
  obtain ⟨htask, hm⟩ := hx
  obtain ⟨n, rfl⟩ : ∃ n, fuel = n + 1 := Nat.exists_eq_succ_of_ne_zero (by rintro rfl; cases h)
  cases task with
  | evaluate e => exact fixes_of_expression h (Task.evaluate.inj htask) hm
  | evaluateAll es => exact fixes_of_expressions h (Task.evaluateAll.inj htask) hm
  | callValue callee paren vs =>
      obtain ⟨hcallee, -, hvs⟩ := Task.callValue.inj htask
      cases h with
      | invoke _ => exact ⟨by rw [Task.relabel, hcallee, hvs], hm.countCall⟩
  | invoke callee vs =>
      obtain ⟨hcallee, hvs⟩ := Task.invoke.inj htask
      exact fixes_of_invocation h hcallee hvs hm
  | runRoutine r vs =>
      obtain ⟨hr, hvs⟩ := Task.runRoutine.inj htask
      cases h with
      | body =>
          have hbody := congrArg (fun r : Routine => r.declaration.body) hr
          simp only [Routine.relabel, FunctionDecl.body_relabel] at hbody
          exact ⟨congrArg Task.executeAll hbody, hm.enterCall hvs⟩
  | execute s => exact fixes_of_statement h (Task.execute.inj htask) hm
  | executeAll ss => exact fixes_of_statements h (Task.executeAll.inj htask) hm
  | lookUp | assign | bindMethod => cases h

theorem Within.fixes {ρ : Relabelling} {x y : Moment} (h : Within x y) (hx : ρ.FixesMoment x) :
    ρ.FixesMoment y := by
  induction h with
  | refl => exact hx
  | tail _ hpart ih => exact hpart.fixes ih

/-! ### Known nodes -/

/-- The machine holds only known nodes, and its table has no others. -/
structure Machine.Over (known : List NodeId) (m : Machine) : Prop where
  nodes : ∀ n ∈ m.nodes, n ∈ known
  hops : ∀ n ∉ known, m.hops[n]? = none

/-- The relabelling that leaves the known nodes alone and moves all others beyond them. -/
def Relabelling.aside (known : List NodeId) (hops : Hops) (h : ∀ n ∉ known, hops[n]? = none) :
    Relabelling where
  label n := if n ∈ known then n else n + known.sum + 1
  before := hops
  after := hops
  agree n := by
    by_cases hn : n ∈ known
    · rw [if_pos hn]
    · rw [if_neg hn, h n hn]
      refine h _ fun hmem => ?_
      exact absurd (List.le_sum_of_mem hmem) (Nat.not_lt.mpr (Nat.le_add_left known.sum n))

namespace Relabelling

variable {known : List NodeId} {hops : Hops} {h : ∀ n ∉ known, hops[n]? = none}

theorem label_aside_iff {n : NodeId} : (aside known hops h).label n = n ↔ n ∈ known := by
  simp only [aside]
  split
  · rename_i hn
    exact iff_of_true rfl hn
  · rename_i hn
    exact iff_of_false (Nat.ne_of_gt (Nat.lt_succ_of_le (Nat.le_add_right n known.sum))) hn

theorem fixes_aside_iff {m : Machine} (hm : m.hops = hops) :
    (aside known hops h).Fixes m ↔ ∀ n ∈ m.nodes, n ∈ known := by
  constructor
  · intro hfixes n hn
    exact label_aside_iff.mp (Machine.label_of_relabel hfixes.machine n hn)
  · intro hnodes
    subst hm
    have hsame : m.relabel (aside known m.hops h).label m.hops = m.relabel id m.hops :=
      Machine.relabel_congr (fun n hn => label_aside_iff.mpr (hnodes n hn)) m.hops
    exact ⟨hsame.trans m.relabel_id, rfl⟩

end Relabelling

/-- What a run on `m` ended with holds only known nodes, and has the same table. -/
def Ending.Conserves {α : Type} (known : List NodeId) (m : Machine) (nodes : α → List NodeId) :
    Ending α → Prop
  | .done value m' => (∀ n ∈ nodes value, n ∈ known) ∧ m'.Over known ∧ m'.hops = m.hops
  | .failed _ m' => m'.Over known ∧ m'.hops = m.hops
  | .unfinished => True

section

variable {known : List NodeId} {m : Machine}

theorem over_of_fixes {m' : Machine} {h : ∀ n ∉ known, m.hops[n]? = none}
    (hm : (Relabelling.aside known m.hops h).Fixes m') : m'.Over known ∧ m'.hops = m.hops :=
  ⟨⟨(Relabelling.fixes_aside_iff hm.hops).mp hm, hm.hops ▸ h⟩, hm.hops⟩

theorem Machine.Over.ending {α : Type} {nodes : α → List NodeId} {r : Run α} {g : α → α}
    (hm : m.Over known) (hr : (Relabelling.aside known m.hops hm.hops).Commutes g r r)
    (hvalue : ∀ v, g v = v → ∀ n ∈ nodes v,
      (Relabelling.aside known m.hops hm.hops).label n = n) :
    (r m).Conserves known m nodes := by
  have hfixes := (Relabelling.fixes_aside_iff (h := hm.hops) rfl).mpr hm.nodes
  cases hrun : r m with
  | done v m' =>
      obtain ⟨hv, hm'⟩ := hfixes.done hr hrun
      exact ⟨fun n hn => Relabelling.label_aside_iff.mp (hvalue v hv n hn), over_of_fixes hm'⟩
  | failed fault m' => exact over_of_fixes (hfixes.failed hr hrun)
  | unfinished => trivial

theorem evaluate_conserves {e : Expr NodeId} (hm : m.Over known)
    (he : ∀ r ∈ e.references, r.label ∈ known) (fuel : Nat) :
    (evaluate fuel e m).Conserves known m Value.nodes := by
  have hr := (Relabelling.allCommute (.aside known m.hops hm.hops) fuel).evaluate e
  rw [Expr.relabel_eq_self_iff.mpr fun r hr => Relabelling.label_aside_iff.mpr (he r hr)] at hr
  exact hm.ending hr fun v hv => Value.label_of_relabel hv

theorem Machine.Over.mono {more : List NodeId} (hm : m.Over known) (h : known ⊆ more) :
    m.Over more :=
  ⟨fun n hn => h (hm.nodes n hn), fun n hn => hm.hops n fun hmem => hn (h hmem)⟩

theorem Machine.Over.atRest (hm : m.Over known) : m.atRest.Over known := ⟨hm.nodes, hm.hops⟩

theorem interpret_conserves {program : List (Stmt NodeId)} (hm : m.Over known)
    (hprogram : ∀ r ∈ Stmt.referencesAll program, r.label ∈ known) (fuel : Nat) :
    (Machine.interpret fuel program m).Conserves known m fun _ => [] := by
  have hr := (Relabelling.allCommute (.aside known m.hops hm.hops) fuel).executeAll program
  rw [Stmt.relabelAll_eq_self_iff.mpr
    fun r hr => Relabelling.label_aside_iff.mpr (hprogram r hr)] at hr
  have hconserves : (executeAll fuel program m).Conserves known m fun _ => [] :=
    hm.ending hr (by simp)
  unfold Machine.interpret
  cases hrun : executeAll fuel program m with
  | done flow m' =>
      rw [hrun] at hconserves
      obtain ⟨-, hover, hhops⟩ := hconserves
      dsimp only
      split
      · exact ⟨by simp, hover.atRest, hhops⟩
      · exact ⟨hover.atRest, hhops⟩
  | failed fault m' =>
      rw [hrun] at hconserves
      obtain ⟨hover, hhops⟩ := hconserves
      dsimp only
      split <;> exact ⟨hover.atRest, hhops⟩
  | unfinished => trivial

/-- The node whose distance a task asks for. -/
def Task.node? : Task → Option NodeId
  | .lookUp node _ | .assign node _ _ => some node
  | _ => none

/-- A run asks for the distances of known nodes only, in the table that it began with. -/
theorem Within.node_mem {x y : Moment} (h : Within x y) (hm : x.machine.Over known)
    (htask : x.task.relabel (Relabelling.aside known x.machine.hops hm.hops).label = x.task) :
    (∀ n ∈ y.task.node?, n ∈ known) ∧ y.machine.hops = x.machine.hops := by
  obtain ⟨htask', hm'⟩ := h.fixes ⟨htask, (Relabelling.fixes_aside_iff rfl).mpr hm.nodes⟩
  refine ⟨fun n hn => (Relabelling.label_aside_iff (h := hm.hops)).mp ?_, hm'.hops⟩
  cases hy : y.task with
  | lookUp node name | assign node name value =>
      rw [hy] at hn htask'
      cases hn
      simp only [Task.relabel, Task.lookUp.injEq, Task.assign.injEq] at htask'
      exact htask'.1
  | _ =>
      rw [hy] at hn
      cases hn

end

end Lox
