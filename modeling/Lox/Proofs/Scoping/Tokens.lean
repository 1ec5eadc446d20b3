import Lox.Proofs.Syntax.StatementReading
import Lox.Tree.Numbering

namespace Lox

variable {Label : Type}

mutual

def Expr.tokens : Expr Label → List Token
  | .literal _ => []
  | .grouping inner => inner.tokens
  | .unary operator operand => operator :: operand.tokens
  | .binary left operator right => left.tokens ++ operator :: right.tokens
  | .logical left operator right => left.tokens ++ operator :: right.tokens
  | .var _ name => [name]
  | .assign _ name value => name :: value.tokens
  | .call callee paren arguments => callee.tokens ++ paren :: Expr.tokensAll arguments
  | .get object name => name :: object.tokens
  | .set object name value => name :: (object.tokens ++ value.tokens)
  | .this _ keyword => [keyword]

def Expr.tokensAll : List (Expr Label) → List Token
  | [] => []
  | e :: es => e.tokens ++ Expr.tokensAll es

end

def Expr.tokensOption : Option (Expr Label) → List Token
  | none => []
  | some e => e.tokens

mutual

def Stmt.tokens : Stmt Label → List Token
  | .expression e => e.tokens
  | .print e => e.tokens
  | .var name initial => name :: Expr.tokensOption initial
  | .block body => Stmt.tokensAll body
  | .branch condition consequent none => condition.tokens ++ consequent.tokens
  | .branch condition consequent (some alternative) =>
      condition.tokens ++ consequent.tokens ++ alternative.tokens
  | .loop condition body => condition.tokens ++ body.tokens
  | .function declaration => declaration.tokens
  | .ret keyword value => keyword :: Expr.tokensOption value
  | .class_ name methods => name :: FunctionDecl.tokensAll methods

def Stmt.tokensAll : List (Stmt Label) → List Token
  | [] => []
  | s :: ss => s.tokens ++ Stmt.tokensAll ss

def FunctionDecl.tokens : FunctionDecl Label → List Token
  | ⟨name, params, body⟩ => name :: (params ++ Stmt.tokensAll body)

def FunctionDecl.tokensAll : List (FunctionDecl Label) → List Token
  | [] => []
  | d :: ds => d.tokens ++ FunctionDecl.tokensAll ds

end

theorem FunctionDecl.tokens_eq (d : FunctionDecl Label) :
    d.tokens = d.name :: (d.params ++ Stmt.tokensAll d.body) := by
  cases d
  rfl

theorem FunctionDecl.tokens_subset {d : FunctionDecl Label} {ds : List (FunctionDecl Label)}
    (h : d ∈ ds) : d.tokens ⊆ FunctionDecl.tokensAll ds := by
  induction ds with
  | nil => cases h
  | cons first ds ih =>
      rw [FunctionDecl.tokensAll]
      rcases List.mem_cons.mp h with rfl | h
      · exact List.subset_append_left _ _
      · exact List.subset_append_of_subset_right _ (ih h)

namespace Parsing

def ExprPhrase.tokens : ExprPhrase → List Token
  | .expression e | .binary _ e | .unary e | .call e | .primary e => e.tokens
  | .arguments es | .entries es => Expr.tokensAll es

def StmtPhrase.tokens : StmtPhrase → List Token
  | .declaration s | .statement _ s => s.tokens
  | .declarations ss => Stmt.tokensAll ss
  | .function d => d.tokens
  | .methods ds => FunctionDecl.tokensAll ds

/-- Operators are joined at the levels of the grammar only. -/
def ExprPhrase.graded : ExprPhrase → Prop
  | .binary levels _ => levels ⊆ Parsing.levels
  | _ => True

theorem tokens_join {level : Level Unit} (h : level ∈ levels) (a b : Expr Unit) (operator : Token) :
    (level.join a operator b).tokens = a.tokens ++ operator :: b.tokens := by
  simp only [levels, List.mem_cons, List.not_mem_nil, or_false] at h
  rcases h with rfl | rfl | rfl | rfl | rfl | rfl <;> rfl

theorem tokens_of_assigned? {target value e : Expr Unit} (h : assigned? target value = some e) :
    e.tokens = target.tokens ++ value.tokens := by
  cases target <;> cases h <;> rfl

theorem ReadsAs.tokens_subset {ts : List Token} {p : ExprPhrase} (h : ReadsAs ts p)
    (hp : p.graded) : p.tokens ⊆ ts := by
  induction h with
  | literal | noArguments => exact List.nil_subset _
  | name | this => exact List.Subset.refl _
  | grouping _ _ _ ih =>
      exact List.subset_cons_of_subset _ (List.subset_append_of_subset_left _ (ih trivial))
  | primary _ ih | operand _ ih | arguments _ _ ih | tightest _ ih => exact ih trivial
  | plain _ ih => exact ih (List.Subset.refl _)
  | tighter _ ih => exact ih (List.subset_of_cons_subset hp)
  | lastEntry _ ih =>
      have hentry := ih trivial
      grind [ExprPhrase.tokens, Expr.tokensAll]
  | unary _ _ ih =>
      have hoperand := ih trivial
      grind [ExprPhrase.tokens, Expr.tokens]
  | get _ _ _ ih =>
      have hobject := ih trivial
      grind [ExprPhrase.tokens, Expr.tokens]
  | call _ _ _ _ ihcallee ihargs =>
      have hcallee := ihcallee trivial
      have hargs := ihargs trivial
      grind [ExprPhrase.tokens, Expr.tokens]
  | entry _ _ _ ihentry ihothers =>
      have hentry := ihentry trivial
      have hothers := ihothers trivial
      grind [ExprPhrase.tokens, Expr.tokensAll]
  | join _ _ _ ihleft ihright =>
      have hleft := ihleft hp
      have hright := ihright (List.subset_of_cons_subset hp)
      rw [ExprPhrase.tokens, tokens_join (hp List.mem_cons_self)]
      grind [ExprPhrase.tokens]
  | assign _ _ _ h ihtarget ihvalue =>
      have htarget := ihtarget (List.Subset.refl _)
      have hvalue := ihvalue trivial
      rw [ExprPhrase.tokens, tokens_of_assigned? h]
      grind [ExprPhrase.tokens]

theorem ReadsAsOption.tokens_subset {ts : List Token} {e : Option (Expr Unit)}
    (h : ReadsAsOption ts e) : Expr.tokensOption e ⊆ ts := by
  cases e with
  | none => exact List.nil_subset _
  | some e => exact ReadsAs.tokens_subset h trivial

theorem ReadsAsVariable.tokens_subset {ts : List Token} {s : Stmt Unit}
    (h : ReadsAsVariable ts s) : s.tokens ⊆ ts := by
  cases h with
  | bare => simp [Stmt.tokens, Expr.tokensOption]
  | initial _ _ he =>
      have hinitial := he.tokens_subset trivial
      grind [Stmt.tokens, Expr.tokensOption, ExprPhrase.tokens]

theorem ReadsAsNames.subset {ts names : List Token} (h : ReadsAsNames ts names) :
    names ⊆ ts := by
  induction h with
  | last => exact List.Subset.refl _
  | more _ _ _ ih => grind

theorem ReadsAsParameters.subset {ts names : List Token} (h : ReadsAsParameters ts names) :
    names ⊆ ts := by
  cases h with
  | none => exact List.nil_subset _
  | some h => exact h.subset

theorem ReadsAsInitial.tokens_subset {ts : List Token} {initial : Option (Stmt Unit)}
    (h : ReadsAsInitial ts initial) : ∀ s ∈ initial, s.tokens ⊆ ts := by
  cases h with
  | none => simp
  | var_ _ h =>
      rintro _ ⟨⟩
      exact List.subset_cons_of_subset _ h.tokens_subset
  | expression h =>
      rintro _ ⟨⟩
      exact List.subset_append_of_subset_left _ (h.tokens_subset trivial)

theorem tokens_forLoop_subset {initial : Option (Stmt Unit)}
    {condition increment : Option (Expr Unit)} {body : Stmt Unit} {ts : List Token}
    (hinitial : ∀ s ∈ initial, s.tokens ⊆ ts) (hcondition : Expr.tokensOption condition ⊆ ts)
    (hincrement : Expr.tokensOption increment ⊆ ts) (hbody : body.tokens ⊆ ts) :
    (forLoop initial condition increment body).tokens ⊆ ts := by
  unfold forLoop
  cases initial <;> cases condition <;> cases increment <;>
    simp_all [Stmt.tokens, Stmt.tokensAll, Expr.tokens, Expr.tokensOption]

theorem ReadsAsStmt.tokens_subset {ts : List Token} {p : StmtPhrase} (h : ReadsAsStmt ts p) :
    p.tokens ⊆ ts := by
  induction h with
  | expression he _ =>
      exact List.subset_append_of_subset_left _ (he.tokens_subset trivial)
  | print _ he _ =>
      exact List.subset_cons_of_subset _
        (List.subset_append_of_subset_left _ (he.tokens_subset trivial))
  | ret _ hvalue _ =>
      exact List.cons_subset_cons _ (List.subset_append_of_subset_left _ hvalue.tokens_subset)
  | block _ _ _ ih =>
      exact List.subset_cons_of_subset _ (List.subset_append_of_subset_left _ ih)
  | branch _ _ hcondition _ _ ih =>
      have hcondition := hcondition.tokens_subset trivial
      grind [StmtPhrase.tokens, Stmt.tokens, ExprPhrase.tokens]
  | branches _ _ hcondition _ _ _ _ ihconsequent ihalternative =>
      have hcondition := hcondition.tokens_subset trivial
      grind [StmtPhrase.tokens, Stmt.tokens, ExprPhrase.tokens]
  | loop _ _ hcondition _ _ ih =>
      have hcondition := hcondition.tokens_subset trivial
      grind [StmtPhrase.tokens, Stmt.tokens, ExprPhrase.tokens]
  | forLoop _ _ hinitial hcondition _ hincrement _ _ ih =>
      refine tokens_forLoop_subset ?_ ?_ ?_ ?_
      · intro s hs
        have hs := hinitial.tokens_subset s hs
        grind
      · have hcondition := hcondition.tokens_subset
        grind
      · have hincrement := hincrement.tokens_subset
        grind
      · grind [StmtPhrase.tokens]
  | statement _ ih => exact ih
  | var_ _ h => exact List.subset_cons_of_subset _ h.tokens_subset
  | function _ _ ih => exact List.subset_cons_of_subset _ ih
  | class_ _ _ _ _ _ ih => grind [StmtPhrase.tokens, Stmt.tokens]
  | noDeclarations | noMethods => exact List.nil_subset _
  | declarations _ _ ihs ihss => grind [StmtPhrase.tokens, Stmt.tokensAll]
  | methods _ _ ihd ihds => grind [StmtPhrase.tokens, FunctionDecl.tokensAll]
  | body _ _ hparams _ _ _ _ ih =>
      refine List.cons_subset_cons _ ?_
      refine List.subset_cons_of_subset _ (List.append_subset.mpr ⟨?_, ?_⟩)
      · exact List.subset_append_of_subset_left _ hparams.subset
      · exact List.subset_append_of_subset_right _ (List.subset_cons_of_subset _
          (List.subset_cons_of_subset _ (List.subset_append_of_subset_left _ ih)))

end Parsing

mutual

theorem Expr.tokens_numbered :
    ∀ (next : NodeId) (e : Expr Label), (e.numbered next).1.tokens = e.tokens
  | _, .literal _ | _, .var _ _ | _, .this _ _ => rfl
  | next, .grouping inner => Expr.tokens_numbered next inner
  | next, .unary _ operand => congrArg _ (Expr.tokens_numbered next operand)
  | next, .binary left _ right | next, .logical left _ right => by
      simp [Expr.numbered, Expr.tokens, Expr.tokens_numbered _ left, Expr.tokens_numbered _ right]
  | next, .assign _ _ value => congrArg _ (Expr.tokens_numbered (next + 1) value)
  | next, .call callee _ arguments => by
      simp [Expr.numbered, Expr.tokens, Expr.tokens_numbered _ callee,
        Expr.tokensAll_numbered _ arguments]
  | next, .get object _ => congrArg _ (Expr.tokens_numbered next object)
  | next, .set object _ value => by
      simp [Expr.numbered, Expr.tokens, Expr.tokens_numbered _ object,
        Expr.tokens_numbered _ value]

theorem Expr.tokensAll_numbered :
    ∀ (next : NodeId) (es : List (Expr Label)),
      Expr.tokensAll (Expr.numberedList next es).1 = Expr.tokensAll es
  | _, [] => rfl
  | next, e :: es => by
      simp [Expr.numberedList, Expr.tokensAll, Expr.tokens_numbered _ e,
        Expr.tokensAll_numbered _ es]

end

theorem Expr.tokensOption_numbered (next : NodeId) (e : Option (Expr Label)) :
    Expr.tokensOption (Expr.numberedOption next e).1 = Expr.tokensOption e := by
  cases e with
  | none => rfl
  | some e => exact Expr.tokens_numbered next e

mutual

theorem Stmt.tokens_numbered :
    ∀ (next : NodeId) (s : Stmt Label), (s.numbered next).1.tokens = s.tokens
  | next, .expression e | next, .print e => Expr.tokens_numbered next e
  | next, .var _ initial => congrArg _ (Expr.tokensOption_numbered next initial)
  | next, .block body => Stmt.tokensAll_numbered next body
  | next, .branch condition consequent none => by
      simp [Stmt.numbered, Stmt.tokens, Expr.tokens_numbered, Stmt.tokens_numbered _ consequent]
  | next, .branch condition consequent (some alternative) => by
      simp [Stmt.numbered, Stmt.tokens, Expr.tokens_numbered, Stmt.tokens_numbered _ consequent,
        Stmt.tokens_numbered _ alternative]
  | next, .loop condition body => by
      simp [Stmt.numbered, Stmt.tokens, Expr.tokens_numbered, Stmt.tokens_numbered _ body]
  | next, .function declaration => FunctionDecl.tokens_numbered next declaration
  | next, .ret _ value => congrArg _ (Expr.tokensOption_numbered next value)
  | next, .class_ _ methods => congrArg _ (FunctionDecl.tokensAll_numbered next methods)

theorem Stmt.tokensAll_numbered :
    ∀ (next : NodeId) (ss : List (Stmt Label)),
      Stmt.tokensAll (Stmt.numberedList next ss).1 = Stmt.tokensAll ss
  | _, [] => rfl
  | next, s :: ss => by
      simp [Stmt.numberedList, Stmt.tokensAll, Stmt.tokens_numbered _ s,
        Stmt.tokensAll_numbered _ ss]

theorem FunctionDecl.tokens_numbered :
    ∀ (next : NodeId) (d : FunctionDecl Label), (d.numbered next).1.tokens = d.tokens
  | next, ⟨_, _, body⟩ => by
      simp [FunctionDecl.numbered, FunctionDecl.tokens, Stmt.tokensAll_numbered _ body]

theorem FunctionDecl.tokensAll_numbered :
    ∀ (next : NodeId) (ds : List (FunctionDecl Label)),
      FunctionDecl.tokensAll (FunctionDecl.numberedList next ds).1 = FunctionDecl.tokensAll ds
  | _, [] => rfl
  | next, d :: ds => by
      simp [FunctionDecl.numberedList, FunctionDecl.tokensAll, FunctionDecl.tokens_numbered _ d,
        FunctionDecl.tokensAll_numbered _ ds]

end

end Lox
