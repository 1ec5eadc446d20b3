import Lox.Proofs.Brackets.Trees
import Lox.Proofs.Scoping.Tokens
import Lox.Proofs.Syntax.Writing

namespace Lox

open Parsing Scan

/-- The token is no string, and no infinite number. -/
def Token.isPlain (t : Token) : Bool :=
  match t.kind with
  | .string _ => false
  | .number n => n.isFinite
  | _ => true

/-- The tokens are spelled as tokens are, and they are plain. -/
def Legible (ts : List Token) : Prop := ∀ t ∈ ts, t.IsLegal ∧ t.isPlain

variable {t : Token} {ts us : List Token} {k : Kind}

theorem legible_cons_iff : Legible (t :: ts) ↔ (t.IsLegal ∧ t.isPlain) ∧ Legible ts :=
  List.forall_mem_cons

theorem legible_append_iff : Legible (ts ++ us) ↔ Legible ts ∧ Legible us :=
  List.forall_mem_append

theorem Token.isPlain_literal {value : Literal} (h : t.isPlain)
    (hvalue : literal? t.kind = some value) : value.IsPlain := by
  unfold Token.isPlain at h
  cases hkind : t.kind with
  | keyword k =>
      rw [hkind] at hvalue
      cases k <;> cases hvalue <;> trivial
  | number n =>
      rw [hkind] at h hvalue
      cases hvalue
      exact h
  | string s =>
      rw [hkind] at h
      cases h
  | symbol | identifier | endOfInput =>
      rw [hkind] at hvalue
      cases hvalue

theorem Token.IsLegal.isAmong (h : t.IsLegal) (hkind : t.kind = k) : t.IsAmong [k] :=
  ⟨List.mem_singleton.mpr hkind, h⟩

namespace Parsing

/-- What is read is legible. -/
def ExprPhrase.IsLegible : ExprPhrase → Prop
  | .expression e | .binary _ e | .unary e | .call e | .primary e => e.IsLegible
  | .arguments es | .entries es => Expr.AreLegible es

def StmtPhrase.IsLegible : StmtPhrase → Prop
  | .declaration s | .statement _ s => s.IsLegible
  | .declarations ss => Stmt.AreLegible ss
  | .function d => d.IsLegible
  | .methods ds => FunctionDecl.AreLegible ds

/-- Each level joins two operands with operators of its own. -/
theorem isLegible_join {level : Level Unit} (hlevel : level ∈ levels) {left right : Expr Unit}
    (ht : t.IsLegal) (hkind : t.kind ∈ level.operators) (hleft : left.IsLegible)
    (hright : right.IsLegible) : (level.join left t right).IsLegible := by
  simp only [levels, List.mem_cons, List.not_mem_nil, or_false] at hlevel
  rcases hlevel with rfl | rfl | rfl | rfl | rfl | rfl
  all_goals
    refine ⟨⟨?_, ht⟩, hleft, hright⟩
    revert hkind
    generalize t.kind = k
    revert k
    decide

theorem isLegible_assigned? {target value e : Expr Unit} (h : assigned? target value = some e)
    (htarget : target.IsLegible) (hvalue : value.IsLegible) : e.IsLegible := by
  cases target <;> cases h
  case var => exact ⟨htarget, hvalue⟩
  case get => exact ⟨htarget.1, htarget.2, hvalue⟩

theorem ReadsAs.isLegible {ph : ExprPhrase} (h : ReadsAs ts ph) (hph : ph.graded)
    (hts : Legible ts) : ph.IsLegible := by
  induction h with
  | literal h => exact Token.isPlain_literal (hts _ List.mem_cons_self).2 h
  | name h | this h => exact (hts _ List.mem_cons_self).1.isAmong h
  | noArguments => trivial
  | grouping _ _ _ ih =>
      rw [legible_cons_iff, legible_append_iff] at hts
      exact ih trivial hts.2.1
  | primary _ ih | operand _ ih | arguments _ _ ih | tightest _ ih => exact ih trivial hts
  | plain _ ih => exact ih (List.Subset.refl _) hts
  | tighter _ ih => exact ih (List.subset_of_cons_subset hph) hts
  | lastEntry _ ih => exact ⟨ih trivial hts, trivial⟩
  | call _ _ _ hr ihcallee ihargs =>
      simp only [legible_cons_iff, legible_append_iff] at hts
      obtain ⟨hcallee, -, hargs, hparen, -⟩ := hts
      exact ⟨hparen.1.isAmong hr, ihcallee trivial hcallee, ihargs trivial hargs⟩
  | get _ _ hname ih =>
      simp only [legible_cons_iff, legible_append_iff] at hts
      obtain ⟨hobject, -, hlegal, -⟩ := hts
      exact ⟨hlegal.1.isAmong hname, ih trivial hobject⟩
  | entry _ _ _ ihentry ihothers =>
      simp only [legible_cons_iff, legible_append_iff] at hts
      exact ⟨ihentry trivial hts.1, ihothers trivial hts.2.2⟩
  | unary hkind _ ih =>
      rw [legible_cons_iff] at hts
      exact ⟨⟨hkind, hts.1.1⟩, ih trivial hts.2⟩
  | join _ hkind _ ihleft ihright =>
      simp only [legible_cons_iff, legible_append_iff] at hts
      obtain ⟨hleft, hoperator, hright⟩ := hts
      exact isLegible_join (hph List.mem_cons_self) hoperator.1 hkind (ihleft hph hleft)
        (ihright (List.subset_of_cons_subset hph) hright)
  | assign _ _ _ h ihtarget ihvalue =>
      simp only [legible_cons_iff, legible_append_iff] at hts
      exact isLegible_assigned? h (ihtarget (List.Subset.refl _) hts.1) (ihvalue trivial hts.2.2)

theorem ReadsAsOption.isLegible {e : Option (Expr Unit)} (h : ReadsAsOption ts e)
    (hts : Legible ts) : ∀ e' ∈ e, e'.IsLegible := by
  rintro e' rfl
  exact ReadsAs.isLegible h trivial hts

theorem ReadsAsVariable.isLegible {s : Stmt Unit} (h : ReadsAsVariable ts s) (hts : Legible ts) :
    s.IsLegible := by
  cases h with
  | bare hname => exact (hts _ List.mem_cons_self).1.isAmong hname
  | initial hname _ he =>
      simp only [legible_cons_iff, legible_append_iff] at hts
      obtain ⟨hlegal, -, hinitial, -⟩ := hts
      exact ⟨hlegal.1.isAmong hname, he.isLegible trivial hinitial⟩

theorem ReadsAsNames.isAmong {names : List Token} (h : ReadsAsNames ts names)
    (hts : Legible ts) : ∀ name ∈ names, name.IsAmong [.identifier] := by
  induction h with
  | last hname => exact List.forall_mem_singleton.mpr ((hts _ List.mem_cons_self).1.isAmong hname)
  | more hname _ _ ih =>
      rw [legible_cons_iff, legible_cons_iff] at hts
      exact List.forall_mem_cons.mpr ⟨hts.1.1.isAmong hname, ih hts.2.2⟩

theorem ReadsAsParameters.isAmong {names : List Token} (h : ReadsAsParameters ts names)
    (hts : Legible ts) : ∀ name ∈ names, name.IsAmong [.identifier] := by
  cases h with
  | none => exact List.forall_mem_nil _
  | some h => exact h.isAmong hts

theorem ReadsAsInitial.isLegible {initial : Option (Stmt Unit)} (h : ReadsAsInitial ts initial)
    (hts : Legible ts) : ∀ s ∈ initial, s.IsLegible := by
  cases h with
  | none => rintro _ ⟨⟩
  | var_ _ h =>
      rintro _ ⟨⟩
      exact h.isLegible (legible_cons_iff.mp hts).2
  | expression h =>
      rintro _ ⟨⟩
      exact h.isLegible trivial (legible_append_iff.mp hts).1

/-- A loop that is put together from legible parts is legible: what it adds is `true` at most. -/
theorem isLegible_forLoop {initial : Option (Stmt Unit)} {condition increment : Option (Expr Unit)}
    {body : Stmt Unit} (hinitial : ∀ s ∈ initial, s.IsLegible)
    (hcondition : ∀ e ∈ condition, e.IsLegible) (hincrement : ∀ e ∈ increment, e.IsLegible)
    (hbody : body.IsLegible) : (forLoop initial condition increment body).IsLegible := by
  have hcondition : (condition.getD (.literal (.boolean true))).IsLegible := by
    cases condition with
    | none => trivial
    | some e => exact hcondition e rfl
  have hloop : (forLoop none condition increment body).IsLegible := by
    cases increment with
    | none => exact ⟨hcondition, hbody⟩
    | some e => exact ⟨hcondition, hbody, hincrement e rfl, trivial⟩
  cases initial with
  | none => exact hloop
  | some s => exact ⟨hinitial s rfl, hloop, trivial⟩

theorem ReadsAsStmt.isLegible {ph : StmtPhrase} (h : ReadsAsStmt ts ph) (hts : Legible ts) :
    ph.IsLegible := by
  induction h with
  | expression he => exact he.isLegible trivial (legible_append_iff.mp hts).1
  | print _ he =>
      rw [legible_cons_iff, legible_append_iff] at hts
      exact he.isLegible trivial hts.2.1
  | @ret word _ _ value hword hvalue =>
      rw [legible_cons_iff, legible_append_iff] at hts
      have hkeyword := hts.1.1.isAmong hword
      cases value with
      | none => exact hkeyword
      | some e => exact ⟨hkeyword, hvalue.isLegible hts.2.1 e rfl⟩
  | block _ _ _ ih =>
      rw [legible_cons_iff, legible_append_iff] at hts
      exact ih hts.2.1
  | branch _ _ hcondition _ _ ih | loop _ _ hcondition _ _ ih =>
      simp only [legible_cons_iff, legible_append_iff] at hts
      obtain ⟨-, -, hcs, -, hus⟩ := hts
      exact ⟨hcondition.isLegible trivial hcs, ih hus⟩
  | branches _ _ hcondition _ _ _ _ ihconsequent ihalternative =>
      simp only [legible_cons_iff, legible_append_iff] at hts
      obtain ⟨-, -, hcs, -, hus, -, hvs⟩ := hts
      exact ⟨hcondition.isLegible trivial hcs, ihconsequent hus, ihalternative hvs⟩
  | forLoop _ _ hinitial hcondition _ hincrement _ _ ih =>
      simp only [legible_cons_iff, legible_append_iff] at hts
      obtain ⟨-, -, his, hcs, -, hns, -, hus⟩ := hts
      exact isLegible_forLoop (hinitial.isLegible his) (hcondition.isLegible hcs)
        (hincrement.isLegible hns) (ih hus)
  | statement _ ih => exact ih hts
  | var_ _ h => exact h.isLegible (legible_cons_iff.mp hts).2
  | function _ _ ih => exact ih (legible_cons_iff.mp hts).2
  | class_ _ hname _ _ _ ih =>
      simp only [legible_cons_iff, legible_append_iff] at hts
      obtain ⟨-, hlegal, -, hmethods, -⟩ := hts
      exact ⟨hlegal.1.isAmong hname, ih hmethods⟩
  | noDeclarations | noMethods => trivial
  | declarations _ _ ihs ihss =>
      rw [legible_append_iff] at hts
      exact ⟨ihs hts.1, ihss hts.2⟩
  | methods _ _ ihd ihds =>
      rw [legible_append_iff] at hts
      exact ⟨ihd hts.1, ihds hts.2⟩
  | body hname _ hparams _ _ _ _ ih =>
      simp only [legible_cons_iff, legible_append_iff] at hts
      obtain ⟨hlegal, -, hps, -, -, hbody, -⟩ := hts
      exact ⟨hlegal.1.isAmong hname, hparams.isAmong hps, ih hbody⟩

end Parsing

end Lox
