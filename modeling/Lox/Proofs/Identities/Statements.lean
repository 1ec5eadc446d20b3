import Lox.Proofs.Identities.Expressions

namespace Lox

theorem Stmt.references_branch (condition : Expr NodeId) (consequent : Stmt NodeId)
    (alternative : Option (Stmt NodeId)) :
    (Stmt.branch condition consequent alternative).references =
      condition.references ++ consequent.references ++ Stmt.referencesAll alternative.toList := by
  cases alternative <;> simp [Stmt.references, Stmt.referencesAll]

theorem Stmt.shape_branch (condition : Expr NodeId) (consequent : Stmt NodeId)
    (alternative : Option (Stmt NodeId)) :
    (Stmt.branch condition consequent alternative).shape =
      .branch condition.shape consequent.shape (alternative.map Stmt.shape) := by
  cases alternative <;> rfl

theorem Stmt.referencesAll_append (before after : List (Stmt NodeId)) :
    Stmt.referencesAll (before ++ after) =
      Stmt.referencesAll before ++ Stmt.referencesAll after := by
  induction before with
  | nil => rfl
  | cons s ss ih => rw [List.cons_append, Stmt.referencesAll, ih, Stmt.referencesAll,
      List.append_assoc]

theorem Stmt.shapeAll_append (before after : List (Stmt NodeId)) :
    Stmt.shapeAll (before ++ after) = Stmt.shapeAll before ++ Stmt.shapeAll after := by
  induction before with
  | nil => rfl
  | cons s ss ih => exact congrArg (s.shape :: ·) ih

theorem Stmt.shapeAll_toList (statement : Option (Stmt NodeId)) :
    Stmt.shapeAll statement.toList = (statement.map Stmt.shape).toList := by
  cases statement <;> rfl

namespace Issuing

open Parsing

variable {first : NodeId}

theorem someExpression_follows (stop : Token) (tokens : List Token) :
    ((expression (Rule first) stop tokens).map some).Follows
      Expr.shapeOption Expr.referencesOption [] ((expression Reply stop tokens).map some) :=
  (expression_follows stop tokens).map (fun _ => rfl) fun _ => List.Subperm.refl _

theorem optionalExpression_follows (stop : Token) (ending : Symbol) (tokens : List Token) :
    (optionalExpression (Rule first) stop ending tokens).Follows
      Expr.shapeOption Expr.referencesOption []
      (optionalExpression Reply stop ending tokens) := by
  unfold optionalExpression
  cases tokens with
  | nil => exact (someExpression_follows stop []).relax
  | cons t rest =>
      dsimp only
      split
      · exact .pure rfl (List.Subperm.refl _)
      · exact (someExpression_follows stop (t :: rest)).relax

theorem expressionStatement_follows (stop : Token) (tokens : List Token) :
    (expressionStatement (Rule first) stop tokens).Follows
      Stmt.shape Stmt.references [] (expressionStatement Reply stop tokens) := by
  unfold expressionStatement
  refine .andThen (expression_follows stop tokens) fun e rest _ => ?_
  exact (takeSymbol_follows _ _ _ _ _).map (fun _ => rfl) fun _ => List.Subperm.refl _

theorem printStatement_follows (stop : Token) (tokens : List Token) :
    (printStatement (Rule first) stop tokens).Follows
      Stmt.shape Stmt.references [] (printStatement Reply stop tokens) := by
  unfold printStatement
  refine .andThen (expression_follows stop tokens) fun e rest _ => ?_
  exact (takeSymbol_follows _ _ _ _ _).map (fun _ => rfl) fun _ => List.Subperm.refl _

theorem returnStatement_follows (stop keyword : Token) (tokens : List Token) :
    (returnStatement (Rule first) stop keyword tokens).Follows
      Stmt.shape Stmt.references [] (returnStatement Reply stop keyword tokens) := by
  unfold returnStatement
  refine .andThen (optionalExpression_follows stop _ tokens) fun value rest _ => ?_
  exact (takeSymbol_follows _ _ _ _ _).map (fun _ => rfl) fun _ => List.Subperm.refl _

theorem initialValue_follows (stop : Token) (tokens : List Token) :
    (initialValue (Rule first) stop tokens).Follows
      Expr.shapeOption Expr.referencesOption [] (initialValue Reply stop tokens) := by
  unfold initialValue
  cases tokens with
  | nil => exact .pure rfl (List.Subperm.refl _)
  | cons t rest =>
      dsimp only
      split
      · exact .afterToken t (someExpression_follows stop rest)
      · exact .pure rfl (List.Subperm.refl _)

theorem variableDeclaration_follows (stop : Token) (tokens : List Token) :
    (variableDeclaration (Rule first) stop tokens).Follows
      Stmt.shape Stmt.references [] (variableDeclaration Reply stop tokens) := by
  unfold variableDeclaration
  refine .andThen (takeName_follows [] _ _ _) fun name rest _ => ?_
  refine .andThen (initialValue_follows stop rest) fun initial rest _ => ?_
  exact (takeSymbol_follows _ _ _ _ _).map (fun _ => rfl) fun _ => List.Subperm.refl _

theorem parameterNames_follow (held : List (Reference NodeId)) (stop : Token) (seen : Nat)
    (tokens : List Token) :
    (parameterNames (Rule first) stop seen tokens).Follows id (fun _ => held) held
      (parameterNames Reply stop seen tokens) := by
  unfold parameterNames
  refine .reporting _ (.andThen (takeName_follows held stop _ tokens) fun name rest hle => ?_)
  cases rest with
  | nil => exact .pure rfl (List.Subperm.refl held)
  | cons comma after =>
      dsimp only
      split
      · have hafter : after.length < tokens.length := by
          simp only [List.length_cons, Bool.toNat_true] at hle
          omega
        exact .afterToken comma ((parameterNames_follow held stop (seen + 1) after).map
          (fun _ => rfl) fun _ => List.Subperm.refl held)
      · exact .pure rfl (List.Subperm.refl held)
termination_by tokens.length

theorem parameters_follow (held : List (Reference NodeId)) (stop : Token) (tokens : List Token) :
    (parameters (Rule first) stop tokens).Follows id (fun _ => held) held
      (parameters Reply stop tokens) := by
  unfold parameters
  cases tokens with
  | nil => exact (parameterNames_follow held stop 0 []).relax
  | cons t rest =>
      dsimp only
      split
      · exact .pure rfl (List.Subperm.refl held)
      · exact (parameterNames_follow held stop 0 (t :: rest)).relax

theorem someStatement_follows {takes : Bool} {tokens : List Token}
    {r : Rule first takes tokens (Stmt NodeId)} {plain : Reply takes tokens (Stmt Unit)}
    (h : r.Follows Stmt.shape Stmt.references [] plain) :
    (r.map some).Follows (Option.map Stmt.shape) (fun s => Stmt.referencesAll s.toList) []
      (plain.map some) := by
  refine h.map (fun _ => rfl) fun s => ?_
  rw [Option.toList_some, Stmt.referencesAll, Stmt.referencesAll, List.append_nil]

theorem forInitial_follows (stop : Token) (tokens : List Token) :
    (forInitial (Rule first) stop tokens).Follows
      (Option.map Stmt.shape) (fun s => Stmt.referencesAll s.toList) []
      (forInitial Reply stop tokens) := by
  unfold forInitial
  cases tokens with
  | nil => exact someStatement_follows (expressionStatement_follows stop [])
  | cons t rest =>
      dsimp only
      split
      · exact .afterToken t (.pure rfl (List.Subperm.refl _))
      · split
        · exact .afterToken t (someStatement_follows (variableDeclaration_follows stop rest))
        · exact someStatement_follows (expressionStatement_follows stop (t :: rest))

theorem shape_forLoop (initial : Option (Stmt NodeId)) (condition increment : Option (Expr NodeId))
    (body : Stmt NodeId) :
    (forLoop initial condition increment body).shape =
      forLoop (initial.map Stmt.shape) (Expr.shapeOption condition)
        (Expr.shapeOption increment) body.shape := by
  cases initial <;> cases condition <;> cases increment <;> rfl

theorem references_forLoop (initial : Option (Stmt NodeId))
    (condition increment : Option (Expr NodeId)) (body : Stmt NodeId) :
    (forLoop initial condition increment body).references =
      Stmt.referencesAll initial.toList ++ Expr.referencesOption condition ++
        (body.references ++ Expr.referencesOption increment) := by
  cases initial <;> cases condition <;> cases increment <;>
    simp [forLoop, Stmt.references, Stmt.referencesAll, Expr.references, Expr.referencesOption]

/-! ### Recovery -/

/-- A declaration recovers as the plain one does. The references of its statement, if it has one,
are among those that were built for it. -/
structure Recovers {tokens : List Token} (r : Issuer first → Recovery NodeId tokens × Issuer first)
    (plain : Recovery Unit tokens) : Prop where
  statement : ∀ issuer, (r issuer).1.statement.map Stmt.shape = plain.statement
  rest : ∀ issuer, (r issuer).1.rest = plain.rest
  reports : ∀ issuer, (r issuer).1.reports = plain.reports
  built : ∀ issuer, ∃ new, (r issuer).2.built = issuer.built ++ new ∧
    (Stmt.referencesAll (r issuer).1.statement.toList).Subperm new

theorem Rule.Follows.recover {t : Token} {rest : List Token}
    {r : Rule first true (t :: rest) (Stmt NodeId)} {plain : Reply true (t :: rest) (Stmt Unit)}
    (h : r.Follows Stmt.shape Stmt.references [] plain) : Recovers r.recover plain.recover := by
  have hboth : ∀ issuer, (r.recover issuer).1.statement.map Stmt.shape = plain.recover.statement ∧
      (r.recover issuer).1.rest = plain.recover.rest ∧
      (r.recover issuer).1.reports = plain.recover.reports := by
    intro issuer
    rw [← h.erased issuer]
    unfold Rule.recover
    obtain ⟨⟨outcome, hfits⟩, issuer'⟩ := r issuer
    cases outcome <;> exact ⟨rfl, rfl, rfl⟩
  refine ⟨fun issuer => (hboth issuer).1, fun issuer => (hboth issuer).2.1,
    fun issuer => (hboth issuer).2.2, fun issuer => ?_⟩
  obtain ⟨new, hnew, hvalue⟩ := h.built issuer
  refine ⟨new, ?_⟩
  unfold Rule.recover
  revert hnew hvalue
  obtain ⟨⟨outcome, hfits⟩, issuer'⟩ := r issuer
  intro hnew hvalue
  cases outcome with
  | refused fault rest' reports => exact ⟨hnew, List.nil_subperm⟩
  | accepted statement rest' reports =>
      refine ⟨hnew, ?_⟩
      change (Stmt.referencesAll [statement]).Subperm new
      rw [Stmt.referencesAll, Stmt.referencesAll, List.append_nil]
      exact hvalue statement rest' reports rfl

theorem Recovers.afterDeclaration {tokens : List Token} {takes : Bool} {α β : Type}
    {erase : α → β} {references : α → List (Reference NodeId)}
    {declaration : Issuer first → Recovery NodeId tokens × Issuer first}
    {plain : Recovery Unit tokens}
    {next : Option (Stmt NodeId) → (rest : List Token) → rest.length < tokens.length →
      Rule first takes rest α}
    {next' : Option (Stmt Unit) → (rest : List Token) → rest.length < tokens.length →
      Reply takes rest β}
    (h : Recovers declaration plain)
    (hnext : ∀ statement rest hrest, (next statement rest hrest).Follows erase references
      (Stmt.referencesAll statement.toList) (next' (statement.map Stmt.shape) rest hrest)) :
    (Rule.afterDeclaration declaration next).Follows erase references []
      (Reply.afterDeclaration plain next') := by
  constructor
  · intro issuer
    have hstatement := h.statement issuer
    have hrest := h.rest issuer
    have hreports := h.reports issuer
    clear h
    unfold Rule.afterDeclaration
    generalize declaration issuer = d at hstatement hrest hreports
    obtain ⟨⟨statement, rest, reports, progress⟩, issuer'⟩ := d
    obtain ⟨statement', rest', reports', progress'⟩ := plain
    dsimp only at hstatement hrest hreports
    subst hstatement hrest hreports
    exact (((hnext statement rest progress).reporting reports).within _).erased issuer'
  · intro issuer
    obtain ⟨new, hnew, hfirst⟩ := h.built issuer
    unfold Rule.afterDeclaration
    generalize declaration issuer = d at hnew hfirst
    obtain ⟨⟨statement, rest, reports, progress⟩, issuer'⟩ := d
    obtain ⟨more, hmore, hvalue⟩ := (((hnext statement rest progress).reporting reports).within
      (Nat.le_of_lt progress)).built issuer'
    refine ⟨new ++ more, ?_, fun v rest' reports' haccepted => ?_⟩
    · rw [← List.append_assoc, ← hnew]
      exact hmore
    · exact (hvalue v rest' reports' haccepted).trans (hfirst.append (List.Subperm.refl more))

/-! ### Statements in statements -/

/-- Lists of fewer than `n` tokens are read as statements and as blocks alike. -/
structure FollowsStatementsBelow (first : NodeId) (stop : Token) (n : Nat) : Prop where
  statement : ∀ tokens : List Token, tokens.length < n →
    (statement (Rule first) stop tokens).Follows
      Stmt.shape Stmt.references [] (statement Reply stop tokens)
  block : ∀ tokens : List Token, tokens.length < n →
    (block (Rule first) stop tokens).Follows
      Stmt.shapeAll Stmt.referencesAll [] (block Reply stop tokens)

section

variable {stop : Token} {n : Nat} (hbelow : FollowsStatementsBelow first stop n)
include hbelow

theorem function_follows (callable : Callable) (tokens : List Token) (hlength : tokens.length ≤ n) :
    (function (Rule first) stop callable tokens).Follows
      FunctionDecl.shape FunctionDecl.references []
      (function Reply stop callable tokens) := by
  rw [function, function]
  refine .andThen (takeName_follows [] _ _ _) fun name rest hrest => ?_
  refine .andThen (takeSymbol_follows [] _ _ _ _) fun _ rest₁ hrest₁ => ?_
  refine .andThen (parameters_follow [] stop rest₁) fun params rest₂ hrest₂ => ?_
  refine .andThen (takeSymbol_follows [] _ _ _ _) fun _ rest₃ hrest₃ => ?_
  refine .andThen (takeSymbol_follows [] _ _ _ _) fun _ rest₄ hrest₄ => ?_
  refine (hbelow.block rest₄ ?_).map (fun _ => rfl) fun _ => List.Subperm.refl _
  simp only [Bool.toNat_true, Bool.toNat_false] at hrest hrest₁ hrest₂ hrest₃ hrest₄
  omega

theorem methods_follow (tokens : List Token) (hlength : tokens.length ≤ n) :
    (methods (Rule first) stop tokens).Follows
      (FunctionDecl.relabelAll fun _ => ()) FunctionDecl.referencesAll []
      (methods Reply stop tokens) := by
  cases tokens with
  | nil =>
      rw [methods, methods]
      exact .refuse
  | cons t rest =>
      rw [methods, methods]
      split
      · exact .afterToken t (.pure rfl (List.Subperm.refl _))
      · refine .andThen (function_follows hbelow .method (t :: rest) hlength)
          fun method after hafter => ?_
        have hlt : after.length < (t :: rest).length := by
          simp only [Bool.toNat_true] at hafter
          omega
        exact ((methods_follow after (Nat.le_trans (Nat.le_of_lt hlt) hlength)).holding _).map
          (fun _ => rfl) fun _ => List.Subperm.refl _
termination_by tokens.length
decreasing_by
  subst_vars
  exact hlt

theorem classDeclaration_follows (tokens : List Token) (hlength : tokens.length ≤ n) :
    (classDeclaration (Rule first) stop tokens).Follows
      Stmt.shape Stmt.references [] (classDeclaration Reply stop tokens) := by
  rw [classDeclaration, classDeclaration]
  refine .andThen (takeName_follows [] _ _ _) fun name rest hrest => ?_
  refine .andThen (takeSymbol_follows [] _ _ _ _) fun _ rest₁ hrest₁ => ?_
  refine (methods_follow hbelow rest₁ ?_).map (fun _ => rfl) fun _ => List.Subperm.refl _
  simp only [Bool.toNat_true] at hrest hrest₁
  omega

theorem alternative_follows (tokens : List Token) (hlength : tokens.length < n) :
    (alternative (Rule first) stop tokens).Follows
      (Option.map Stmt.shape) (fun s => Stmt.referencesAll s.toList) []
      (alternative Reply stop tokens) := by
  cases tokens with
  | nil =>
      rw [alternative, alternative]
      exact .pure rfl (List.Subperm.refl _)
  | cons t rest =>
      rw [alternative, alternative]
      split
      · exact .afterToken t
          (someStatement_follows (hbelow.statement rest (Nat.lt_of_succ_lt hlength)))
      · exact .pure rfl (List.Subperm.refl _)

theorem ifStatement_follows (tokens : List Token) (hlength : tokens.length ≤ n) :
    (ifStatement (Rule first) stop tokens).Follows
      Stmt.shape Stmt.references [] (ifStatement Reply stop tokens) := by
  rw [ifStatement, ifStatement]
  refine .andThen (takeSymbol_follows [] _ _ _ _) fun _ rest hrest => ?_
  refine .andThen (expression_follows stop rest) fun condition rest₁ hrest₁ => ?_
  refine .andThen (takeSymbol_follows _ _ _ _ _) fun _ rest₂ hrest₂ => ?_
  simp only [Bool.toNat_true] at hrest hrest₁ hrest₂
  refine .andThen ((hbelow.statement rest₂ (by omega)).holding _) fun consequent rest₃ hrest₃ => ?_
  simp only [Bool.toNat_true] at hrest₃
  refine ((alternative_follows hbelow rest₃ (by omega)).holding _).map
    (Stmt.shape_branch condition consequent) fun alternative => ?_
  rw [Stmt.references_branch]

theorem whileStatement_follows (tokens : List Token) (hlength : tokens.length ≤ n) :
    (whileStatement (Rule first) stop tokens).Follows
      Stmt.shape Stmt.references [] (whileStatement Reply stop tokens) := by
  rw [whileStatement, whileStatement]
  refine .andThen (takeSymbol_follows [] _ _ _ _) fun _ rest hrest => ?_
  refine .andThen (expression_follows stop rest) fun condition rest₁ hrest₁ => ?_
  refine .andThen (takeSymbol_follows _ _ _ _ _) fun _ rest₂ hrest₂ => ?_
  simp only [Bool.toNat_true] at hrest hrest₁ hrest₂
  exact ((hbelow.statement rest₂ (by omega)).holding _).map (fun _ => rfl)
    fun _ => List.Subperm.refl _

theorem forStatement_follows (tokens : List Token) (hlength : tokens.length ≤ n) :
    (forStatement (Rule first) stop tokens).Follows
      Stmt.shape Stmt.references [] (forStatement Reply stop tokens) := by
  rw [forStatement, forStatement]
  refine .andThen (takeSymbol_follows [] _ _ _ _) fun _ rest hrest => ?_
  refine .andThen (forInitial_follows stop rest) fun initial rest₁ hrest₁ => ?_
  refine .andThen ((optionalExpression_follows stop _ rest₁).holding _)
    fun condition rest₂ hrest₂ => ?_
  refine .andThen (takeSymbol_follows _ _ _ _ _) fun _ rest₃ hrest₃ => ?_
  refine .andThen ((optionalExpression_follows stop _ rest₃).holding _)
    fun increment rest₄ hrest₄ => ?_
  refine .andThen (takeSymbol_follows _ _ _ _ _) fun _ rest₅ hrest₅ => ?_
  simp only [Bool.toNat_true, Bool.toNat_false] at hrest hrest₁ hrest₂ hrest₃ hrest₄ hrest₅
  refine ((hbelow.statement rest₅ (by omega)).holding _).map
    (shape_forLoop initial condition increment) fun body => ?_
  -- the increment is read before the body and stands after it
  rw [references_forLoop, List.append_assoc _ (Expr.referencesOption increment)]
  exact (List.perm_append_comm.append_left _).subperm

theorem statement_follows_of_le (tokens : List Token) (hlength : tokens.length ≤ n) :
    (statement (Rule first) stop tokens).Follows
      Stmt.shape Stmt.references [] (statement Reply stop tokens) := by
  cases tokens with
  | nil =>
      rw [statement, statement]
      exact expressionStatement_follows stop []
  | cons t rest =>
      have hrest : rest.length ≤ n := Nat.le_of_succ_le hlength
      rw [statement, statement]
      split
      · exact .afterToken t (forStatement_follows hbelow rest hrest)
      split
      · exact .afterToken t (ifStatement_follows hbelow rest hrest)
      split
      · exact .afterToken t (printStatement_follows stop rest)
      split
      · exact .afterToken t (returnStatement_follows stop t rest)
      split
      · exact .afterToken t (whileStatement_follows hbelow rest hrest)
      split
      · exact .afterToken t
          ((hbelow.block rest hlength).map (fun _ => rfl) fun _ => List.Subperm.refl _)
      · exact expressionStatement_follows stop (t :: rest)

theorem declaration_recovers_of_le (t : Token) (tokens : List Token)
    (hlength : (t :: tokens).length ≤ n) :
    Recovers (declaration (Rule first) stop t tokens) (declaration Reply stop t tokens) := by
  have htokens : tokens.length ≤ n := Nat.le_of_succ_le hlength
  rw [declaration, declaration]
  refine Rule.Follows.recover ?_
  split
  · exact .afterToken t (classDeclaration_follows hbelow tokens htokens)
  split
  · exact .afterToken t ((function_follows hbelow .function tokens htokens).map (fun _ => rfl)
      fun _ => List.Subperm.refl _)
  split
  · exact .afterToken t (variableDeclaration_follows stop tokens)
  · exact statement_follows_of_le hbelow (t :: tokens) hlength

theorem block_follows_of_le (tokens : List Token) (hlength : tokens.length ≤ n) :
    (block (Rule first) stop tokens).Follows
      Stmt.shapeAll Stmt.referencesAll [] (block Reply stop tokens) := by
  cases tokens with
  | nil =>
      rw [block, block]
      exact .refuse
  | cons t rest =>
      rw [block, block]
      split
      · exact .afterToken t (.pure rfl (List.Subperm.refl _))
      · refine (declaration_recovers_of_le hbelow t rest hlength).afterDeclaration
          fun statement after hafter => ?_
        refine ((hbelow.block after (Nat.lt_of_lt_of_le hafter hlength)).holding _).map
          (fun ss => ?_) fun ss => ?_
        · rw [Stmt.shapeAll_append, Stmt.shapeAll_toList]
        · rw [Stmt.referencesAll_append]

end

theorem followsStatementsBelow (first : NodeId) (stop : Token) (n : Nat) :
    FollowsStatementsBelow first stop n := by
  induction n with
  | zero => exact ⟨fun _ h => absurd h (Nat.not_lt_zero _), fun _ h => absurd h (Nat.not_lt_zero _)⟩
  | succ n ih =>
      exact ⟨fun tokens h => statement_follows_of_le ih tokens (Nat.le_of_lt_succ h),
        fun tokens h => block_follows_of_le ih tokens (Nat.le_of_lt_succ h)⟩

theorem declaration_recovers (stop t : Token) (tokens : List Token) :
    Recovers (declaration (Rule first) stop t tokens) (declaration Reply stop t tokens) :=
  declaration_recovers_of_le (followsStatementsBelow first stop _) t tokens (Nat.le_refl _)

end Issuing

end Lox
