import Lox.Proofs.Recovery.Expressions

namespace Lox.Parsing

variable {stop : Token} {limit : Nat} {tokens rest : List Token}

theorem expressionStatement_proceeds (tokens : List Token) :
    (expressionStatement Reply stop tokens).Proceeds stop limit :=
  .andThen (expression_proceeds tokens) fun _ rest _ => (takeSymbol_proceeds _ _ rest).map

theorem printStatement_proceeds (tokens : List Token) :
    (printStatement Reply stop tokens).Proceeds stop limit :=
  .andThen (expression_proceeds tokens) fun _ rest _ => (takeSymbol_proceeds _ _ rest).map

theorem optionalExpression_proceeds (ending : Symbol) (tokens : List Token) :
    (optionalExpression Reply stop ending tokens).Proceeds stop limit := by
  have hexpression : ((expression Reply stop tokens).map some).Proceeds stop limit :=
    (expression_proceeds tokens).map
  unfold optionalExpression
  cases tokens with
  | nil => exact hexpression.relax
  | cons t rest =>
      dsimp only
      split
      · exact .pure _
      · exact hexpression.relax

theorem returnStatement_proceeds (keyword : Token) (tokens : List Token) :
    (returnStatement Reply stop keyword tokens).Proceeds stop limit :=
  .andThen (optionalExpression_proceeds _ tokens) fun _ rest _ =>
    (takeSymbol_proceeds _ _ rest).map

theorem initialValue_proceeds (tokens : List Token) :
    (initialValue Reply stop tokens).Proceeds stop limit := by
  unfold initialValue
  cases tokens with
  | nil => exact .pure _
  | cons t rest =>
      dsimp only
      split
      · exact .afterToken t (expression_proceeds rest).map
      · exact .pure _

theorem variableDeclaration_proceeds (tokens : List Token) :
    (variableDeclaration Reply stop tokens).Proceeds stop limit :=
  .andThen (takeName_proceeds _ tokens) fun _ rest _ =>
    .andThen (initialValue_proceeds rest) fun _ rest _ => (takeSymbol_proceeds _ _ rest).map

theorem parameterNames_proceed (seen : Nat) (tokens : List Token) :
    (parameterNames Reply stop seen tokens).Proceeds stop limit := by
  have hexcess : SyntaxFault.Lenient .tooManyParameters := trivial
  unfold parameterNames
  refine .reporting (.andThen (takeName_proceeds _ tokens) ?_) (excess_passage hexcess seen tokens)
  intro name rest hle
  cases rest with
  | nil => exact .pure _
  | cons comma after =>
      dsimp only
      split
      · have hafter : after.length < tokens.length := by
          simp only [List.length_cons, Bool.toNat_true] at hle
          omega
        exact .afterToken comma (parameterNames_proceed (seen + 1) after).map
      · exact .pure _
termination_by tokens.length

theorem parameters_proceed (tokens : List Token) :
    (parameters Reply stop tokens).Proceeds stop limit := by
  have hnames : (parameterNames Reply stop 0 tokens).Proceeds stop limit :=
    parameterNames_proceed 0 tokens
  unfold parameters
  cases tokens with
  | nil => exact hnames.relax
  | cons t rest =>
      dsimp only
      split
      · exact .pure _
      · exact hnames.relax

theorem forInitial_proceeds (tokens : List Token) :
    (forInitial Reply stop tokens).Proceeds stop limit := by
  have hexpression : ((expressionStatement Reply stop tokens).map some).Proceeds stop limit :=
    (expressionStatement_proceeds tokens).map
  unfold forInitial
  cases tokens with
  | nil => exact hexpression
  | cons t rest =>
      dsimp only
      split
      · exact .afterToken t (.pure _)
      · split
        · exact .afterToken t (variableDeclaration_proceeds rest).map
        · exact hexpression

/-- Lists of fewer than `n` tokens are gone through so as statements, and as the rest of a block. -/
structure StatementsProceedBelow (stop : Token) (limit n : Nat) : Prop where
  statement : ∀ tokens : List Token, tokens.length < n →
    (statement Reply stop tokens).Proceeds stop limit
  block : ∀ tokens : List Token, tokens.length < n → (block Reply stop tokens).Proceeds stop limit

section

variable {n : Nat} (hbelow : StatementsProceedBelow stop limit n)
include hbelow

theorem function_proceeds (callable : Callable) (hlength : tokens.length ≤ n) :
    (function Reply stop callable tokens).Proceeds stop limit := by
  rw [function]
  refine .andThen (takeName_proceeds _ tokens) fun name rest₁ h₁ => ?_
  refine .andThen (takeSymbol_proceeds _ _ rest₁) fun _ rest₂ h₂ => ?_
  refine .andThen (parameters_proceed rest₂) fun params rest₃ h₃ => ?_
  refine .andThen (takeSymbol_proceeds _ _ rest₃) fun _ rest₄ h₄ => ?_
  refine .andThen (takeSymbol_proceeds _ _ rest₄) fun _ rest₅ h₅ => ?_
  have hlt : rest₅.length < n := by
    simp only [Bool.toNat_true, Bool.toNat_false] at *
    omega
  exact (hbelow.block rest₅ hlt).map

theorem methods_proceed (tokens : List Token) (hlength : tokens.length ≤ n) :
    (methods Reply stop tokens).Proceeds stop limit := by
  cases tokens with
  | nil =>
      rw [methods]
      exact .refuse ⟨.missing .rightBrace .afterClassBody, trivial, rfl⟩
  | cons t rest =>
      rw [methods]
      split
      · exact .afterToken t (.pure _)
      · refine .andThen (function_proceeds hbelow .method hlength) fun d after hle => ?_
        have hlt : after.length < (t :: rest).length := by
          simp only [Bool.toNat_true] at hle
          omega
        exact (methods_proceed after (Nat.le_trans (Nat.le_of_lt hlt) hlength)).map
termination_by tokens.length

theorem classDeclaration_proceeds (hlength : tokens.length ≤ n) :
    (classDeclaration Reply stop tokens).Proceeds stop limit := by
  rw [classDeclaration]
  refine .andThen (takeName_proceeds _ tokens) fun name rest₁ h₁ => ?_
  refine .andThen (takeSymbol_proceeds _ _ rest₁) fun _ rest₂ h₂ => ?_
  have hle : rest₂.length ≤ n := by
    simp only [Bool.toNat_true] at *
    omega
  exact (methods_proceed hbelow rest₂ hle).map

theorem alternative_proceeds (hlength : tokens.length < n) :
    (alternative Reply stop tokens).Proceeds stop limit := by
  cases tokens with
  | nil =>
      rw [alternative]
      exact .pure _
  | cons t rest =>
      rw [alternative]
      split
      · exact .afterToken t (hbelow.statement rest (Nat.lt_of_succ_lt hlength)).map
      · exact .pure _

theorem ifStatement_proceeds (hlength : tokens.length < n) :
    (ifStatement Reply stop tokens).Proceeds stop limit := by
  rw [ifStatement]
  refine .andThen (takeSymbol_proceeds _ _ tokens) fun _ rest₁ h₁ => ?_
  refine .andThen (expression_proceeds rest₁) fun condition rest₂ h₂ => ?_
  refine .andThen (takeSymbol_proceeds _ _ rest₂) fun _ rest₃ h₃ => ?_
  have hlt : rest₃.length < n := by
    simp only [Bool.toNat_true] at *
    omega
  refine .andThen (hbelow.statement rest₃ hlt) fun s rest₄ h₄ => ?_
  have hlt' : rest₄.length < n := by
    simp only [Bool.toNat_true] at h₄
    omega
  exact (alternative_proceeds hbelow hlt').map

theorem whileStatement_proceeds (hlength : tokens.length < n) :
    (whileStatement Reply stop tokens).Proceeds stop limit := by
  rw [whileStatement]
  refine .andThen (takeSymbol_proceeds _ _ tokens) fun _ rest₁ h₁ => ?_
  refine .andThen (expression_proceeds rest₁) fun condition rest₂ h₂ => ?_
  refine .andThen (takeSymbol_proceeds _ _ rest₂) fun _ rest₃ h₃ => ?_
  have hlt : rest₃.length < n := by
    simp only [Bool.toNat_true] at *
    omega
  exact (hbelow.statement rest₃ hlt).map

theorem forStatement_proceeds (hlength : tokens.length < n) :
    (forStatement Reply stop tokens).Proceeds stop limit := by
  rw [forStatement]
  refine .andThen (takeSymbol_proceeds _ _ tokens) fun _ rest₁ h₁ => ?_
  refine .andThen (forInitial_proceeds rest₁) fun initial rest₂ h₂ => ?_
  refine .andThen (optionalExpression_proceeds _ rest₂) fun condition rest₃ h₃ => ?_
  refine .andThen (takeSymbol_proceeds _ _ rest₃) fun _ rest₄ h₄ => ?_
  refine .andThen (optionalExpression_proceeds _ rest₄) fun increment rest₅ h₅ => ?_
  refine .andThen (takeSymbol_proceeds _ _ rest₅) fun _ rest₆ h₆ => ?_
  have hlt : rest₆.length < n := by
    simp only [Bool.toNat_true, Bool.toNat_false] at *
    omega
  exact (hbelow.statement rest₆ hlt).map

theorem statement_proceeds_of_le (hlength : tokens.length ≤ n) :
    (statement Reply stop tokens).Proceeds stop limit := by
  have hexpression : (expressionStatement Reply stop tokens).Proceeds stop limit :=
    expressionStatement_proceeds tokens
  cases tokens with
  | nil =>
      rw [statement]
      exact hexpression
  | cons t rest =>
      rw [statement]
      split
      · exact .afterToken t (forStatement_proceeds hbelow hlength)
      split
      · exact .afterToken t (ifStatement_proceeds hbelow hlength)
      split
      · exact .afterToken t (printStatement_proceeds rest)
      split
      · exact .afterToken t (returnStatement_proceeds t rest)
      split
      · exact .afterToken t (whileStatement_proceeds hbelow hlength)
      split
      · exact .afterToken t (hbelow.block rest hlength).map
      · exact hexpression

/-- What comes of a declaration comes of a rule that proceeds, by recovery if that refuses. -/
theorem exists_recover_of_le {t : Token} (hlength : (t :: tokens).length ≤ n) :
    ∃ r : Reply true (t :: tokens) (Stmt Unit),
      declaration Reply stop t tokens = r.recover ∧ r.Proceeds stop limit := by
  have hle : tokens.length ≤ n := Nat.le_of_succ_le hlength
  rw [declaration]
  refine ⟨_, rfl, ?_⟩
  split
  · exact .afterToken t (classDeclaration_proceeds hbelow hle)
  split
  · exact .afterToken t (function_proceeds hbelow .function hle).map
  split
  · exact .afterToken t (variableDeclaration_proceeds tokens)
  · exact statement_proceeds_of_le hbelow hlength

theorem block_proceeds_of_le (hlength : tokens.length ≤ n) (hlimit : n < limit) :
    (block Reply stop tokens).Proceeds stop limit := by
  cases tokens with
  | nil =>
      rw [block]
      exact .refuse ⟨.missing .rightBrace .afterBlock, trivial, rfl⟩
  | cons t rest =>
      rw [block]
      split
      · exact .afterToken t (.pure _)
      · have hread : Passage stop limit (t :: rest) (declaration Reply stop t rest).rest
            ((declaration Reply stop t rest).reports ++ []) :=
          .declaration (Nat.lt_of_le_of_lt hlength hlimit) .refl
        rw [List.append_nil] at hread
        generalize declaration Reply stop t rest = d at hread
        obtain ⟨first, after, reports, hprogress⟩ := d
        have hlt : after.length < n := Nat.lt_of_lt_of_le hprogress hlength
        exact .within (hbelow.block after hlt).map hread (Nat.le_of_lt hprogress)

end

theorem statementsProceedBelow {n : Nat} (h : n ≤ limit) : StatementsProceedBelow stop limit n := by
  induction n with
  | zero => exact ⟨fun _ h => absurd h (Nat.not_lt_zero _), fun _ h => absurd h (Nat.not_lt_zero _)⟩
  | succ n ih =>
      have hbelow := ih (Nat.le_of_succ_le h)
      exact ⟨fun _ hlt => statement_proceeds_of_le hbelow (Nat.le_of_lt_succ hlt),
        fun _ hlt => block_proceeds_of_le hbelow (Nat.le_of_lt_succ hlt) h⟩

/-- The end of the tokens, a place after a semicolon, or a word that starts a statement. -/
inductive Boundary (tokens : List Token) : List Token → Prop
  | ended : Boundary tokens []
  | semicolon {before rest : List Token} {t : Token} (ht : t.kind = .symbol .semicolon)
      (htokens : tokens = before ++ t :: rest) : Boundary tokens rest
  | word {t : Token} {rest : List Token} (ht : startsStatement t.kind) : Boundary tokens (t :: rest)

theorem Boundary.cons (h : Boundary tokens rest) (t : Token) : Boundary (t :: tokens) rest := by
  cases h with
  | ended => exact .ended
  | @semicolon before _ _ ht htokens =>
      rw [htokens]
      exact .semicolon ht (show t :: (before ++ _) = (t :: before) ++ _ from rfl)
  | word ht => exact .word ht

theorem resume_isSuffix (previous : Kind) (tokens : List Token) :
    resume previous tokens <:+ tokens := by
  induction tokens generalizing previous with
  | nil => exact List.suffix_rfl
  | cons t rest ih =>
      unfold resume
      split
      · exact List.suffix_rfl
      · exact (ih t.kind).trans (List.suffix_cons t rest)

theorem synchronize_isSuffix (tokens : List Token) : synchronize tokens <:+ tokens := by
  cases tokens with
  | nil => exact List.suffix_rfl
  | cons t rest => exact (resume_isSuffix t.kind rest).trans (List.suffix_cons t rest)

theorem resume_boundary (t : Token) (tokens : List Token) :
    Boundary (t :: tokens) (resume t.kind tokens) := by
  induction tokens generalizing t with
  | nil => exact .ended
  | cons next rest ih =>
      unfold resume
      split
      · rename_i h
        rcases h with hsemicolon | hword
        · exact .semicolon hsemicolon (List.nil_append _).symm
        · exact .word hword
      · exact (ih next).cons t

theorem synchronize_boundary (tokens : List Token) : Boundary tokens (synchronize tokens) := by
  cases tokens with
  | nil => exact .ended
  | cons t rest => exact resume_boundary t rest

/-- What comes of a declaration: it is read, or fails at a fault that it reports after all else, and
goes on at a boundary. -/
inductive Declares (stop : Token) (tokens : List Token) :
    Option (Stmt Unit) → List Token → List Diagnostic → Prop
  | read {s : Stmt Unit} {rest : List Token} {reports : List Diagnostic}
      (h : Passage stop tokens.length tokens rest reports) :
      Declares stop tokens (some s) rest reports
  | failed {middle rest : List Token} {fault : Diagnostic} {reports : List Diagnostic}
      (h : Passage stop tokens.length tokens middle reports) (hfault : StopsAt stop middle fault)
      (hrest : rest <:+ middle) (hboundary : Boundary middle rest) :
      Declares stop tokens none rest (reports ++ [fault])

theorem declaration_declares (stop t : Token) (tokens : List Token) :
    Declares stop (t :: tokens) (declaration Reply stop t tokens).statement
      (declaration Reply stop t tokens).rest (declaration Reply stop t tokens).reports := by
  have hbelow : StatementsProceedBelow stop (t :: tokens).length (t :: tokens).length :=
    statementsProceedBelow (Nat.le_refl _)
  obtain ⟨⟨outcome, hfits⟩, hdeclaration, hproceeds⟩ :=
    exists_recover_of_le hbelow (Nat.le_refl (t :: tokens).length)
  rw [hdeclaration]
  cases outcome with
  | accepted s rest reports => exact .read hproceeds
  | refused fault middle reports =>
      exact .failed hproceeds.1 hproceeds.2 (synchronize_isSuffix middle)
        (synchronize_boundary middle)

theorem Passage.isSuffix_of {reports : List Diagnostic}
    (hdeclaration : ∀ t tokens, (t :: tokens).length < limit →
      (Parsing.declaration Reply stop t tokens).rest <:+ t :: tokens)
    (h : Passage stop limit tokens rest reports) : rest <:+ tokens := by
  induction h with
  | refl => exact List.suffix_rfl
  | @token t tokens _ _ _ ih => exact ih.trans (List.suffix_cons t tokens)
  | complaint _ _ ih => exact ih
  | declaration hlimit _ ih => exact ih.trans (hdeclaration _ _ hlimit)

theorem declaration_isSuffix (stop t : Token) (tokens : List Token) :
    (declaration Reply stop t tokens).rest <:+ t :: tokens := by
  have hdeclares := declaration_declares stop t tokens
  have hpassage : ∀ {middle reports},
      Passage stop (t :: tokens).length (t :: tokens) middle reports → middle <:+ t :: tokens :=
    Passage.isSuffix_of fun t' tokens' hlimit =>
      have : tokens'.length < tokens.length := Nat.lt_of_succ_lt_succ hlimit
      declaration_isSuffix stop t' tokens'
  generalize declaration Reply stop t tokens = d at hdeclares
  obtain ⟨statement, rest, reports, hprogress⟩ := d
  dsimp only at hdeclares ⊢
  cases hdeclares with
  | read h => exact hpassage h
  | failed h _ hrest _ => exact hrest.trans (hpassage h)
termination_by tokens.length

/-- A passage goes forward only. -/
theorem Passage.isSuffix {reports : List Diagnostic} (h : Passage stop limit tokens rest reports) :
    rest <:+ tokens :=
  h.isSuffix_of fun t tokens _ => declaration_isSuffix stop t tokens

end Lox.Parsing
