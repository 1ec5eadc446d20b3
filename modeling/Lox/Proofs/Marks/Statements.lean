import Lox.Proofs.Marks.Expressions

namespace Lox.Parsing

variable {stop : Token} {all tokens : List Token}

def StmtIn (all : List Token) (s : Stmt Unit) : Prop := StandIn all s.marks

def BodyIn (all : List Token) (ss : List (Stmt Unit)) : Prop := StandIn all (Stmt.marksAll ss)

def FunctionIn (all : List Token) (d : FunctionDecl Unit) : Prop := StandIn all d.marks

theorem optionalExpression_yields (stop : Token) (ending : Symbol) (htokens : tokens ⊆ all) :
    (optionalExpression Reply stop ending tokens).Yields all fun e =>
      StandIn all (Expr.marksOption e) := by
  have hsome : ((expression Reply stop tokens).map some).Yields all fun e =>
      StandIn all (Expr.marksOption e) :=
    (expression_yields stop tokens htokens).map fun _ he => he
  unfold optionalExpression
  cases tokens with
  | nil => exact hsome.relax
  | cons t rest =>
      dsimp only
      split
      · exact .pure htokens standIn_nil
      · exact hsome.relax

theorem expressionStatement_yields (stop : Token) (htokens : tokens ⊆ all) :
    (expressionStatement Reply stop tokens).Yields all (StmtIn all) := by
  refine .andThen (expression_yields stop tokens htokens) fun e rest _ hrest he => ?_
  exact (takeSymbol_yields stop _ _ hrest).map fun _ _ => he

theorem printStatement_yields (stop : Token) (htokens : tokens ⊆ all) :
    (printStatement Reply stop tokens).Yields all (StmtIn all) := by
  refine .andThen (expression_yields stop tokens htokens) fun e rest _ hrest he => ?_
  exact (takeSymbol_yields stop _ _ hrest).map fun _ _ => he

theorem returnStatement_yields (stop keyword : Token) (htokens : tokens ⊆ all) :
    (returnStatement Reply stop keyword tokens).Yields all (StmtIn all) := by
  refine .andThen (optionalExpression_yields stop _ htokens) fun value rest _ hrest hvalue => ?_
  exact (takeSymbol_yields stop _ _ hrest).map fun _ _ => hvalue

theorem initialValue_yields (stop : Token) (htokens : tokens ⊆ all) :
    (initialValue Reply stop tokens).Yields all fun e => StandIn all (Expr.marksOption e) := by
  unfold initialValue
  cases tokens with
  | nil => exact .pure htokens standIn_nil
  | cons t rest =>
      dsimp only
      split
      · exact .afterToken t ((expression_yields stop rest (List.subset_of_cons_subset htokens)).map
          fun _ he => he)
      · exact .pure htokens standIn_nil

theorem variableDeclaration_yields (stop : Token) (htokens : tokens ⊆ all) :
    (variableDeclaration Reply stop tokens).Yields all (StmtIn all) := by
  refine .andThen (takeName_yields stop _ htokens) fun name rest _ hrest hname => ?_
  refine .andThen (initialValue_yields stop hrest) fun initial rest' _ hrest' hinitial => ?_
  exact (takeSymbol_yields stop _ _ hrest').map fun _ _ => standIn_cons.mpr ⟨hname, hinitial⟩

theorem parameterNames_yield (stop : Token) (seen : Nat) (tokens : List Token)
    (htokens : tokens ⊆ all) :
    (parameterNames Reply stop seen tokens).Yields all fun names =>
      StandIn all (names.map .binder) := by
  unfold parameterNames
  refine .reporting _ (.andThen (takeName_yields stop _ htokens) ?_)
  intro name rest hle hrest hname
  have hlast : StandIn all ([name].map .binder) := standIn_cons.mpr ⟨hname, standIn_nil⟩
  cases rest with
  | nil => exact .pure hrest hlast
  | cons comma after =>
      dsimp only
      split
      · have hafter : after.length < tokens.length := by
          simp only [List.length_cons, Bool.toNat_true] at hle
          omega
        refine .afterToken comma
          (.map (parameterNames_yield stop (seen + 1) after (List.subset_of_cons_subset hrest)) ?_)
        intro names hnames
        exact standIn_cons.mpr ⟨hname, hnames⟩
      · exact .pure hrest hlast
termination_by tokens.length

theorem parameters_yield (stop : Token) (htokens : tokens ⊆ all) :
    (parameters Reply stop tokens).Yields all fun names => StandIn all (names.map .binder) := by
  have hsome := parameterNames_yield stop 0 tokens htokens
  unfold parameters
  cases tokens with
  | nil => exact hsome.relax
  | cons t rest =>
      dsimp only
      split
      · exact .pure htokens standIn_nil
      · exact hsome.relax

theorem forInitial_yields (stop : Token) (htokens : tokens ⊆ all) :
    (forInitial Reply stop tokens).Yields all fun s => BodyIn all s.toList := by
  have hbody : ∀ s, StmtIn all s → BodyIn all (some s).toList :=
    fun s hs => standIn_append.mpr ⟨hs, standIn_nil⟩
  have hexpression : ((expressionStatement Reply stop tokens).map some).Yields all fun s =>
      BodyIn all s.toList := (expressionStatement_yields stop htokens).map hbody
  unfold forInitial
  cases tokens with
  | nil => exact hexpression
  | cons t rest =>
      have hrest := List.subset_of_cons_subset htokens
      dsimp only
      split
      · exact .afterToken t (.pure hrest standIn_nil)
      · split
        · exact .afterToken t ((variableDeclaration_yields stop hrest).map hbody)
        · exact hexpression

theorem forLoop_in {initial : Option (Stmt Unit)} {condition increment : Option (Expr Unit)}
    {body : Stmt Unit} (hinitial : BodyIn all initial.toList)
    (hcondition : StandIn all (Expr.marksOption condition))
    (hincrement : StandIn all (Expr.marksOption increment)) (hbody : StmtIn all body) :
    StmtIn all (forLoop initial condition increment body) := by
  unfold StmtIn BodyIn at *
  unfold forLoop
  cases initial <;> cases condition <;> cases increment <;>
    simp_all [Stmt.marks, Stmt.marksAll, Expr.marks, Expr.marksOption]

theorem resume_subset (previous : Kind) (tokens : List Token) :
    resume previous tokens ⊆ tokens := by
  induction tokens generalizing previous with
  | nil => exact List.Subset.refl _
  | cons t rest ih =>
      unfold resume
      split
      · exact List.Subset.refl _
      · exact List.subset_cons_of_subset t (ih t.kind)

theorem synchronize_subset (tokens : List Token) : synchronize tokens ⊆ tokens := by
  cases tokens with
  | nil => exact List.Subset.refl _
  | cons t rest => exact List.subset_cons_of_subset t (resume_subset t.kind rest)

/-- What comes of a declaration is of the text, whether or not a fault was recovered from. -/
structure Recovery.Yields (all : List Token) (r : Recovery Unit tokens) : Prop where
  rest : r.rest ⊆ all
  statement : BodyIn all r.statement.toList

theorem Reply.Yields.recover {t : Token} {r : Reply true (t :: tokens) (Stmt Unit)}
    (h : r.Yields all (StmtIn all)) : r.recover.Yields all := by
  obtain ⟨outcome, hfits⟩ := r
  cases outcome with
  | accepted s rest reports => exact ⟨h.rest, standIn_append.mpr ⟨h.value s rfl, standIn_nil⟩⟩
  | refused fault rest reports =>
      exact ⟨List.Subset.trans (synchronize_subset rest) h.rest, standIn_nil⟩

/-- Lists of fewer than `n` tokens of the text are read as statements, and as the rest of a block,
with proper marks. -/
structure YieldsStatementsBelow (stop : Token) (all : List Token) (n : Nat) : Prop where
  statement : ∀ tokens : List Token, tokens.length < n → tokens ⊆ all →
    (statement Reply stop tokens).Yields all (StmtIn all)
  block : ∀ tokens : List Token, tokens.length < n → tokens ⊆ all →
    (block Reply stop tokens).Yields all (BodyIn all)

section

variable {n : Nat} (hbelow : YieldsStatementsBelow stop all n)
include hbelow

theorem function_yields (callable : Callable) (hlength : tokens.length ≤ n)
    (htokens : tokens ⊆ all) :
    (function Reply stop callable tokens).Yields all (FunctionIn all) := by
  rw [function]
  refine .andThen (takeName_yields stop _ htokens) fun name rest₁ h₁ hrest₁ hname => ?_
  refine .andThen (takeSymbol_yields stop _ _ hrest₁) fun _ rest₂ h₂ hrest₂ _ => ?_
  refine .andThen (parameters_yield stop hrest₂) fun params rest₃ h₃ hrest₃ hparams => ?_
  refine .andThen (takeSymbol_yields stop _ _ hrest₃) fun _ rest₄ h₄ hrest₄ _ => ?_
  refine .andThen (takeSymbol_yields stop _ _ hrest₄) fun _ rest₅ h₅ hrest₅ _ => ?_
  have hlt : rest₅.length < n := by
    simp only [Bool.toNat_true, Bool.toNat_false] at *
    omega
  refine (hbelow.block rest₅ hlt hrest₅).map fun body hbody => ?_
  exact standIn_cons.mpr ⟨hname, standIn_append.mpr ⟨hparams, hbody⟩⟩

theorem methods_yield (tokens : List Token) (hlength : tokens.length ≤ n)
    (htokens : tokens ⊆ all) :
    (methods Reply stop tokens).Yields all fun ds => StandIn all (FunctionDecl.marksAll ds) := by
  cases tokens with
  | nil =>
      rw [methods]
      exact .refuse htokens
  | cons t rest =>
      rw [methods]
      split
      · exact .afterToken t (.pure (List.subset_of_cons_subset htokens) standIn_nil)
      · refine .andThen (function_yields hbelow .method hlength htokens) ?_
        intro d after hle hafter hd
        have hlt : after.length < (t :: rest).length := by
          simp only [Bool.toNat_true] at hle
          omega
        refine (methods_yield after (Nat.le_trans (Nat.le_of_lt hlt) hlength) hafter).map ?_
        intro ds hds
        exact standIn_append.mpr ⟨hd, hds⟩
termination_by tokens.length

theorem classDeclaration_yields (hlength : tokens.length ≤ n) (htokens : tokens ⊆ all) :
    (classDeclaration Reply stop tokens).Yields all (StmtIn all) := by
  rw [classDeclaration]
  refine .andThen (takeName_yields stop _ htokens) fun name rest₁ h₁ hrest₁ hname => ?_
  refine .andThen (takeSymbol_yields stop _ _ hrest₁) fun _ rest₂ h₂ hrest₂ _ => ?_
  have hle : rest₂.length ≤ n := by
    simp only [Bool.toNat_true] at *
    omega
  exact (methods_yield hbelow rest₂ hle hrest₂).map fun ds hds => standIn_cons.mpr ⟨hname, hds⟩

theorem alternative_yields (hlength : tokens.length < n) (htokens : tokens ⊆ all) :
    (alternative Reply stop tokens).Yields all fun s => BodyIn all s.toList := by
  cases tokens with
  | nil =>
      rw [alternative]
      exact .pure htokens standIn_nil
  | cons t rest =>
      have hrest := List.subset_of_cons_subset htokens
      rw [alternative]
      split
      · refine .afterToken t ((hbelow.statement rest (Nat.lt_of_succ_lt hlength) hrest).map ?_)
        intro s hs
        exact standIn_append.mpr ⟨hs, standIn_nil⟩
      · exact .pure htokens standIn_nil

theorem ifStatement_yields (hlength : tokens.length < n) (htokens : tokens ⊆ all) :
    (ifStatement Reply stop tokens).Yields all (StmtIn all) := by
  rw [ifStatement]
  refine .andThen (takeSymbol_yields stop _ _ htokens) fun _ rest₁ h₁ hrest₁ _ => ?_
  refine .andThen (expression_yields stop rest₁ hrest₁)
    fun condition rest₂ h₂ hrest₂ hcondition => ?_
  refine .andThen (takeSymbol_yields stop _ _ hrest₂) fun _ rest₃ h₃ hrest₃ _ => ?_
  have hlt : rest₃.length < n := by
    simp only [Bool.toNat_true] at *
    omega
  refine .andThen (hbelow.statement rest₃ hlt hrest₃) fun s rest₄ h₄ hrest₄ hs => ?_
  have hlt' : rest₄.length < n := by
    simp only [Bool.toNat_true] at h₄
    omega
  refine (alternative_yields hbelow hlt' hrest₄).map fun other hother => ?_
  cases other with
  | none => exact standIn_append.mpr ⟨hcondition, hs⟩
  | some other =>
      have hother : StmtIn all other := (standIn_append.mp hother).1
      exact standIn_append.mpr ⟨hcondition, standIn_append.mpr ⟨hs, hother⟩⟩

theorem whileStatement_yields (hlength : tokens.length < n) (htokens : tokens ⊆ all) :
    (whileStatement Reply stop tokens).Yields all (StmtIn all) := by
  rw [whileStatement]
  refine .andThen (takeSymbol_yields stop _ _ htokens) fun _ rest₁ h₁ hrest₁ _ => ?_
  refine .andThen (expression_yields stop rest₁ hrest₁)
    fun condition rest₂ h₂ hrest₂ hcondition => ?_
  refine .andThen (takeSymbol_yields stop _ _ hrest₂) fun _ rest₃ h₃ hrest₃ _ => ?_
  have hlt : rest₃.length < n := by
    simp only [Bool.toNat_true] at *
    omega
  exact (hbelow.statement rest₃ hlt hrest₃).map fun s hs => standIn_append.mpr ⟨hcondition, hs⟩

theorem forStatement_yields (hlength : tokens.length < n) (htokens : tokens ⊆ all) :
    (forStatement Reply stop tokens).Yields all (StmtIn all) := by
  rw [forStatement]
  refine .andThen (takeSymbol_yields stop _ _ htokens) fun _ rest₁ h₁ hrest₁ _ => ?_
  refine .andThen (forInitial_yields stop hrest₁) fun initial rest₂ h₂ hrest₂ hinitial => ?_
  refine .andThen (optionalExpression_yields stop _ hrest₂)
    fun condition rest₃ h₃ hrest₃ hcondition => ?_
  refine .andThen (takeSymbol_yields stop _ _ hrest₃) fun _ rest₄ h₄ hrest₄ _ => ?_
  refine .andThen (optionalExpression_yields stop _ hrest₄)
    fun increment rest₅ h₅ hrest₅ hincrement => ?_
  refine .andThen (takeSymbol_yields stop _ _ hrest₅) fun _ rest₆ h₆ hrest₆ _ => ?_
  have hlt : rest₆.length < n := by
    simp only [Bool.toNat_true, Bool.toNat_false] at *
    omega
  exact (hbelow.statement rest₆ hlt hrest₆).map fun s hs =>
    forLoop_in hinitial hcondition hincrement hs

theorem statement_yields_of_le (hlength : tokens.length ≤ n) (htokens : tokens ⊆ all) :
    (statement Reply stop tokens).Yields all (StmtIn all) := by
  have hexpression := expressionStatement_yields stop htokens
  cases tokens with
  | nil =>
      rw [statement]
      exact hexpression
  | cons t rest =>
      have hrest := List.subset_of_cons_subset htokens
      rw [statement]
      split
      · exact .afterToken t (forStatement_yields hbelow hlength hrest)
      split
      · exact .afterToken t (ifStatement_yields hbelow hlength hrest)
      split
      · exact .afterToken t (printStatement_yields stop hrest)
      split
      · exact .afterToken t (returnStatement_yields stop t hrest)
      split
      · exact .afterToken t (whileStatement_yields hbelow hlength hrest)
      split
      · exact .afterToken t ((hbelow.block rest hlength hrest).map fun _ hss => hss)
      · exact hexpression

theorem declaration_yields_of_le {t : Token} (hlength : (t :: tokens).length ≤ n)
    (htokens : t :: tokens ⊆ all) : (declaration Reply stop t tokens).Yields all := by
  have hle : tokens.length ≤ n := Nat.le_of_succ_le hlength
  have hrest := List.subset_of_cons_subset htokens
  rw [declaration]
  refine Reply.Yields.recover ?_
  split
  · exact .afterToken t (classDeclaration_yields hbelow hle hrest)
  split
  · exact .afterToken t ((function_yields hbelow .function hle hrest).map fun _ hd => hd)
  split
  · exact .afterToken t (variableDeclaration_yields stop hrest)
  · exact statement_yields_of_le hbelow hlength htokens

theorem block_yields_of_le (hlength : tokens.length ≤ n) (htokens : tokens ⊆ all) :
    (block Reply stop tokens).Yields all (BodyIn all) := by
  cases tokens with
  | nil =>
      rw [block]
      exact .refuse htokens
  | cons t rest =>
      rw [block]
      split
      · exact .afterToken t (.pure (List.subset_of_cons_subset htokens) standIn_nil)
      · have hdeclaration := declaration_yields_of_le hbelow hlength htokens
        generalize declaration Reply stop t rest = d at hdeclaration
        obtain ⟨first, after, reports, hprogress⟩ := d
        have hlt : after.length < n := Nat.lt_of_lt_of_le hprogress hlength
        refine .within (.reporting _ ((hbelow.block after hlt hdeclaration.rest).map ?_))
          (Nat.le_of_lt hprogress)
        intro others hothers
        rw [BodyIn, Stmt.marksAll_append]
        exact standIn_append.mpr ⟨hdeclaration.statement, hothers⟩

end

theorem yieldsStatementsBelow (stop : Token) (all : List Token) (n : Nat) :
    YieldsStatementsBelow stop all n := by
  induction n with
  | zero => exact ⟨fun _ h => absurd h (Nat.not_lt_zero _), fun _ h => absurd h (Nat.not_lt_zero _)⟩
  | succ n ih =>
      exact ⟨fun _ h => statement_yields_of_le ih (Nat.le_of_lt_succ h),
        fun _ h => block_yields_of_le ih (Nat.le_of_lt_succ h)⟩

theorem declaration_yields (stop t : Token) (htokens : t :: tokens ⊆ all) :
    (declaration Reply stop t tokens).Yields all :=
  declaration_yields_of_le (yieldsStatementsBelow stop all _) (Nat.le_refl _) htokens

theorem declarationsAfter_in (stop : Token) {statements : Array (Stmt Unit)}
    (reports : Array Diagnostic) (tokens : List Token) (htokens : tokens ⊆ all)
    (hstatements : BodyIn all statements.toList) :
    BodyIn all (declarationsAfter stop statements reports tokens).value := by
  cases tokens with
  | nil =>
      rw [declarationsAfter]
      exact hstatements
  | cons t rest =>
      rw [declarationsAfter]
      have hdeclaration := declaration_yields stop t htokens
      generalize declaration Reply stop t rest = d at hdeclaration
      obtain ⟨first, after, reports', hprogress⟩ := d
      refine declarationsAfter_in stop _ after hdeclaration.rest ?_
      rw [Array.toList_appendList, BodyIn, Stmt.marksAll_append]
      exact standIn_append.mpr ⟨hstatements, hdeclaration.statement⟩
termination_by tokens.length

/-- The statements that are read from a list of tokens, whatever was reported on the way, have
tokens of the list in proper parts. -/
theorem standIn_program (tokens : List Token) :
    StandIn tokens (Stmt.marksAll (program tokens).value) :=
  declarationsAfter_in _ _ _ (List.takeWhile_sublist _).subset standIn_nil

theorem standIn_singleExpression (tokens : List Token) :
    StandIn tokens (Expr.marksOption (singleExpression tokens).value) := by
  have hyields := expression_yields (stop tokens) (contents tokens)
    (List.takeWhile_sublist _).subset
  unfold singleExpression
  revert hyields
  generalize expression Reply (stop tokens) (contents tokens) = r
  obtain ⟨outcome, hfits⟩ := r
  intro hyields
  cases outcome with
  | refused fault rest reports => exact standIn_nil
  | accepted e rest reports =>
      have he : ExprIn tokens e := hyields.value e rfl
      cases rest with
      | nil => exact he
      | cons t rest => exact he

end Lox.Parsing
