import Lox.Proofs.Syntax.ExpressionSound
import Lox.Proofs.Syntax.StatementReading

namespace Lox.Parsing

theorem optionalExpression_reads (stop : Token) (ending : Symbol) (tokens : List Token) :
    (optionalExpression Reply stop ending tokens).Reads fun read value _ =>
      ReadsAsOption read value := by
  have hsome : ((expression Reply stop tokens).map some).Reads fun read value _ =>
      ReadsAsOption read value :=
    (expression_reads stop tokens).map fun _ _ _ he => he
  unfold optionalExpression
  cases tokens with
  | nil => exact hsome.relax
  | cons t rest =>
      dsimp only
      split
      · exact Reply.reads_pure rfl
      · exact hsome.relax

theorem expressionStatement_reads (stop : Token) (tokens : List Token) :
    (expressionStatement Reply stop tokens).Reads fun read s _ =>
      ∃ (ts : List Token) (e : Expr Unit) (semicolon : Token), read = ts ++ [semicolon] ∧
        s = .expression e ∧ ReadsAs ts (.expression e) ∧ semicolon.kind = .symbol .semicolon := by
  unfold expressionStatement
  refine .andThen (expression_reads stop tokens) ?_
  intro e read rest _ _ he
  refine .map (reads_takeSymbol stop .semicolon _ rest) ?_
  rintro _ semicolon _ ⟨rfl, hsemicolon⟩
  exact ⟨read, e, semicolon, rfl, rfl, he, hsemicolon⟩

theorem printStatement_reads {word : Token} (hword : word.kind = .keyword .print_) (stop : Token)
    (tokens : List Token) :
    (printStatement Reply stop tokens).Reads fun read s _ =>
      ReadsAsStmt (word :: read) (.statement true s) := by
  unfold printStatement
  refine .andThen (expression_reads stop tokens) ?_
  intro e read rest _ _ he
  refine .map (reads_takeSymbol stop .semicolon _ rest) ?_
  rintro _ semicolon _ ⟨rfl, hsemicolon⟩
  exact .print hword he hsemicolon

theorem returnStatement_reads {word : Token} (hword : word.kind = .keyword .return_) (stop : Token)
    (tokens : List Token) :
    (returnStatement Reply stop word tokens).Reads fun read s _ =>
      ReadsAsStmt (word :: read) (.statement true s) := by
  unfold returnStatement
  refine .andThen (optionalExpression_reads stop .semicolon tokens) ?_
  intro value read rest _ _ hvalue
  refine .map (reads_takeSymbol stop .semicolon _ rest) ?_
  rintro _ semicolon _ ⟨rfl, hsemicolon⟩
  exact .ret hword hvalue hsemicolon

theorem initialValue_reads (stop : Token) (tokens : List Token) :
    (initialValue Reply stop tokens).Reads fun read value _ =>
      (read = [] ∧ value = none) ∨
        ∃ (equals : Token) (ts : List Token) (e : Expr Unit), read = equals :: ts ∧
          value = some e ∧ equals.kind = .symbol .equal ∧ ReadsAs ts (.expression e) := by
  unfold initialValue
  cases tokens with
  | nil => exact Reply.reads_pure (.inl ⟨rfl, rfl⟩)
  | cons equals rest =>
      dsimp only
      split
      · rename_i hequals
        refine .afterToken (.map (expression_reads stop rest) ?_)
        intro read e _ he
        exact .inr ⟨equals, read, e, rfl, rfl, hequals, he⟩
      · exact Reply.reads_pure (.inl ⟨rfl, rfl⟩)

theorem variableDeclaration_reads (stop : Token) (tokens : List Token) :
    (variableDeclaration Reply stop tokens).Reads fun read s _ => ReadsAsVariable read s := by
  unfold variableDeclaration
  refine .andThen (reads_takeName stop .variable_ tokens) ?_
  rintro name _ rest _ _ ⟨rfl, hname⟩
  refine .andThen (initialValue_reads stop rest) ?_
  intro initial read rest' _ _ hinitial
  refine .map (reads_takeSymbol stop .semicolon _ rest') ?_
  rintro _ semicolon _ ⟨rfl, hsemicolon⟩
  rcases hinitial with ⟨rfl, rfl⟩ | ⟨equals, ts, e, rfl, rfl, hequals, he⟩
  · exact .bare hname hsemicolon
  · exact .initial hname hequals he hsemicolon

theorem parameterNames_reads (stop : Token) (seen : Nat) (tokens : List Token) :
    (parameterNames Reply stop seen tokens).Reads fun read names _ =>
      ReadsAsNames read names ∧ seen + names.length ≤ entryLimit := by
  unfold parameterNames
  refine .reporting fun hexcess => ?_
  have hseen : seen < entryLimit := excess_eq_nil_iff.mp hexcess
  refine .andThen (reads_takeName stop .parameter tokens) ?_
  rintro name _ rest hle _ ⟨rfl, hname⟩
  cases rest with
  | nil => exact Reply.reads_pure ⟨.last hname, hseen⟩
  | cons comma after =>
      dsimp only
      split
      · rename_i hcomma
        have hafter : after.length < tokens.length := by
          simp only [List.length_cons, Bool.toNat_true] at hle
          omega
        refine .afterToken (.map (parameterNames_reads stop (seen + 1) after) ?_)
        rintro read names _ ⟨hnames, hcount⟩
        refine ⟨.more hname hcomma hnames, ?_⟩
        rw [List.length_cons]
        omega
      · exact Reply.reads_pure ⟨.last hname, hseen⟩
termination_by tokens.length

theorem parameters_reads (stop : Token) (tokens : List Token) :
    (parameters Reply stop tokens).Reads fun read names _ => ReadsAsParameters read names := by
  have hsome : (parameterNames Reply stop 0 tokens).Reads fun read names _ =>
      ReadsAsParameters read names := by
    refine (parameterNames_reads stop 0 tokens).mono ?_
    rintro read names _ ⟨hnames, hcount⟩
    exact .some hnames (by simpa using hcount)
  unfold parameters
  cases tokens with
  | nil => exact hsome.relax
  | cons t rest =>
      dsimp only
      split
      · exact Reply.reads_pure .none
      · exact hsome.relax

theorem forInitial_reads (stop : Token) (tokens : List Token) :
    (forInitial Reply stop tokens).Reads fun read initial _ => ReadsAsInitial read initial := by
  have hexpression : ((expressionStatement Reply stop tokens).map some).Reads fun read initial _ =>
      ReadsAsInitial read initial := by
    refine .map (expressionStatement_reads stop tokens) ?_
    rintro _ _ _ ⟨ts, e, semicolon, rfl, rfl, he, hsemicolon⟩
    exact .expression he hsemicolon
  unfold forInitial
  cases tokens with
  | nil => exact hexpression
  | cons t rest =>
      dsimp only
      split
      · rename_i hsemicolon
        exact .afterToken (Reply.reads_pure (.none hsemicolon))
      · split
        · rename_i hword
          refine .afterToken (.map (variableDeclaration_reads stop rest) ?_)
          intro read s _ hs
          exact .var_ hword hs
        · exact hexpression

theorem Reply.recover_reports_eq_nil {t : Token} {rest : List Token}
    {r : Reply true (t :: rest) (Stmt Unit)} (h : r.recover.reports = []) :
    ∃ s, r.recover.statement = some s ∧ r.Accepts s r.recover.rest := by
  obtain ⟨o, ho⟩ := r
  cases o with
  | accepted s after reports =>
      cases h
      exact ⟨s, rfl, rfl⟩
  | refused fault after reports => simp [Reply.recover] at h

/-- Lists of fewer than `n` tokens are read rightly as statements and as the rest of a block. -/
structure ReadsStatementsBelow (stop : Token) (n : Nat) : Prop where
  statement : ∀ tokens : List Token, tokens.length < n →
    (statement Reply stop tokens).Reads fun read s rest =>
      ∃ closed, ReadsAsStmt read (.statement closed s) ∧ (closed = false → NoElse rest)
  block : ∀ tokens : List Token, tokens.length < n →
    (block Reply stop tokens).Reads fun read ss _ =>
      ∃ (ts : List Token) (r : Token), read = ts ++ [r] ∧ ReadsAsStmt ts (.declarations ss) ∧
        r.kind = .symbol .rightBrace

section

variable {stop : Token} {n : Nat} (hbelow : ReadsStatementsBelow stop n)
include hbelow

theorem function_reads (callable : Callable) (tokens : List Token) (hlength : tokens.length ≤ n) :
    (function Reply stop callable tokens).Reads fun read d _ => ReadsAsStmt read (.function d) := by
  rw [function]
  refine .andThen (reads_takeName stop _ tokens) ?_
  rintro name _ rest₁ h₁ _ ⟨rfl, hname⟩
  refine .andThen (reads_takeSymbol stop .leftParen _ rest₁) ?_
  rintro l _ rest₂ h₂ _ ⟨rfl, hl⟩
  refine .andThen (parameters_reads stop rest₂) ?_
  intro params ps rest₃ h₃ _ hparams
  refine .andThen (reads_takeSymbol stop .rightParen _ rest₃) ?_
  rintro r _ rest₄ h₄ _ ⟨rfl, hr⟩
  refine .andThen (reads_takeSymbol stop .leftBrace _ rest₄) ?_
  rintro open_ _ rest₅ h₅ _ ⟨rfl, hopen⟩
  have hlt : rest₅.length < n := by
    simp only [Bool.toNat_true, Bool.toNat_false] at *
    omega
  refine .map (hbelow.block rest₅ hlt) ?_
  rintro _ ss _ ⟨ts, close, rfl, hbody, hclose⟩
  simpa using ReadsAsStmt.body hname hl hparams hr hopen hbody hclose

theorem methods_reads (tokens : List Token) (hlength : tokens.length ≤ n) :
    (methods Reply stop tokens).Reads fun read ds _ =>
      ∃ (ts : List Token) (r : Token), read = ts ++ [r] ∧ ReadsAsStmt ts (.methods ds) ∧
        r.kind = .symbol .rightBrace := by
  cases tokens with
  | nil =>
      rw [methods]
      exact Reply.reads_refuse
  | cons t rest =>
      rw [methods]
      split
      · rename_i hbrace
        exact .afterToken (Reply.reads_pure ⟨[], t, rfl, .noMethods, hbrace⟩)
      · refine .andThen (function_reads hbelow .method (t :: rest) hlength) ?_
        intro d read after hle _ hd
        have hlt : after.length < (t :: rest).length := by
          simp only [Bool.toNat_true] at hle
          omega
        refine .map (methods_reads after (Nat.le_trans (Nat.le_of_lt hlt) hlength)) ?_
        rintro _ ds _ ⟨ts, r, rfl, hds, hr⟩
        exact ⟨read ++ ts, r, by rw [List.append_assoc], .methods hd hds, hr⟩
termination_by tokens.length

theorem classDeclaration_reads {word : Token} (hword : word.kind = .keyword .class_)
    (tokens : List Token) (hlength : tokens.length ≤ n) :
    (classDeclaration Reply stop tokens).Reads fun read s _ =>
      ReadsAsStmt (word :: read) (.declaration s) := by
  rw [classDeclaration]
  refine .andThen (reads_takeName stop .class_ tokens) ?_
  rintro name _ rest₁ h₁ _ ⟨rfl, hname⟩
  refine .andThen (reads_takeSymbol stop .leftBrace _ rest₁) ?_
  rintro l _ rest₂ h₂ _ ⟨rfl, hl⟩
  have hle : rest₂.length ≤ n := by
    simp only [Bool.toNat_true] at *
    omega
  refine .map (methods_reads hbelow rest₂ hle) ?_
  rintro _ ds _ ⟨ts, r, rfl, hds, hr⟩
  exact .class_ hword hname hl hds hr

theorem alternative_reads (tokens : List Token) (hlength : tokens.length < n) :
    (alternative Reply stop tokens).Reads fun read other rest =>
      (read = [] ∧ other = none ∧ NoElse rest) ∨
        ∃ (word : Token) (ts : List Token) (closed : Bool) (s : Stmt Unit), read = word :: ts ∧
          other = some s ∧ word.kind = .keyword .else_ ∧ ReadsAsStmt ts (.statement closed s) ∧
          (closed = false → NoElse rest) ∧ ¬NoElse tokens := by
  cases tokens with
  | nil =>
      rw [alternative]
      exact Reply.reads_pure (.inl ⟨rfl, rfl, by simp [NoElse]⟩)
  | cons t rest =>
      rw [alternative]
      split
      · rename_i hword
        have helse : ¬NoElse (t :: rest) := fun h => h t rfl hword
        refine .afterToken (.map (hbelow.statement rest (Nat.lt_of_succ_lt hlength)) ?_)
        rintro read s after ⟨closed, hs, hclosed⟩
        exact .inr ⟨t, read, closed, s, rfl, rfl, hword, hs, hclosed, helse⟩
      · rename_i hword
        refine Reply.reads_pure (.inl ⟨rfl, rfl, ?_⟩)
        intro u hu
        cases hu
        exact hword

theorem ifStatement_reads {word : Token} (hword : word.kind = .keyword .if_) (tokens : List Token)
    (hlength : tokens.length < n) :
    (ifStatement Reply stop tokens).Reads fun read s rest =>
      ∃ closed, ReadsAsStmt (word :: read) (.statement closed s) ∧
        (closed = false → NoElse rest) := by
  rw [ifStatement]
  refine .andThen (reads_takeSymbol stop .leftParen _ tokens) ?_
  rintro l _ rest₁ h₁ _ ⟨rfl, hl⟩
  refine .andThen (expression_reads stop rest₁) ?_
  intro condition ts rest₂ h₂ _ hcondition
  refine .andThen (reads_takeSymbol stop .rightParen _ rest₂) ?_
  rintro r _ rest₃ h₃ _ ⟨rfl, hr⟩
  have hlt : rest₃.length < n := by
    simp only [Bool.toNat_true] at *
    omega
  refine .andThen (hbelow.statement rest₃ hlt) ?_
  rintro consequent us rest₄ h₄ _ ⟨closed, hconsequent, hclosed⟩
  have hlt' : rest₄.length < n := by
    simp only [Bool.toNat_true] at h₄
    omega
  refine .map (alternative_reads hbelow rest₄ hlt') ?_
  rintro _ _ rest
    (⟨rfl, rfl, hnone⟩ | ⟨other, vs, closed', s, rfl, rfl, hother, hs, hclosed', helse⟩)
  · refine ⟨false, ?_, fun _ => hnone⟩
    simpa using ReadsAsStmt.branch hword hl hcondition hr hconsequent
  · cases closed with
    | false => exact absurd (hclosed rfl) helse
    | true =>
        refine ⟨closed', ?_, hclosed'⟩
        simpa using ReadsAsStmt.branches hword hl hcondition hr hconsequent hother hs

theorem whileStatement_reads {word : Token} (hword : word.kind = .keyword .while_)
    (tokens : List Token) (hlength : tokens.length < n) :
    (whileStatement Reply stop tokens).Reads fun read s rest =>
      ∃ closed, ReadsAsStmt (word :: read) (.statement closed s) ∧
        (closed = false → NoElse rest) := by
  rw [whileStatement]
  refine .andThen (reads_takeSymbol stop .leftParen _ tokens) ?_
  rintro l _ rest₁ h₁ _ ⟨rfl, hl⟩
  refine .andThen (expression_reads stop rest₁) ?_
  intro condition ts rest₂ h₂ _ hcondition
  refine .andThen (reads_takeSymbol stop .rightParen _ rest₂) ?_
  rintro r _ rest₃ h₃ _ ⟨rfl, hr⟩
  have hlt : rest₃.length < n := by
    simp only [Bool.toNat_true] at *
    omega
  refine .map (hbelow.statement rest₃ hlt) ?_
  rintro us body rest₄ ⟨closed, hbody, hclosed⟩
  exact ⟨closed, by simpa using ReadsAsStmt.loop hword hl hcondition hr hbody, hclosed⟩

theorem forStatement_reads {word : Token} (hword : word.kind = .keyword .for_)
    (tokens : List Token) (hlength : tokens.length < n) :
    (forStatement Reply stop tokens).Reads fun read s rest =>
      ∃ closed, ReadsAsStmt (word :: read) (.statement closed s) ∧
        (closed = false → NoElse rest) := by
  rw [forStatement]
  refine .andThen (reads_takeSymbol stop .leftParen _ tokens) ?_
  rintro l _ rest₁ h₁ _ ⟨rfl, hl⟩
  refine .andThen (forInitial_reads stop rest₁) ?_
  intro initial is rest₂ h₂ _ hinitial
  refine .andThen (optionalExpression_reads stop .semicolon rest₂) ?_
  intro condition cs rest₃ h₃ _ hcondition
  refine .andThen (reads_takeSymbol stop .semicolon _ rest₃) ?_
  rintro semicolon _ rest₄ h₄ _ ⟨rfl, hsemicolon⟩
  refine .andThen (optionalExpression_reads stop .rightParen rest₄) ?_
  intro increment ns rest₅ h₅ _ hincrement
  refine .andThen (reads_takeSymbol stop .rightParen _ rest₅) ?_
  rintro r _ rest₆ h₆ _ ⟨rfl, hr⟩
  have hlt : rest₆.length < n := by
    simp only [Bool.toNat_true, Bool.toNat_false] at *
    omega
  refine .map (hbelow.statement rest₆ hlt) ?_
  rintro us body rest₇ ⟨closed, hbody, hclosed⟩
  refine ⟨closed, ?_, hclosed⟩
  simpa using
    ReadsAsStmt.forLoop hword hl hinitial hcondition hsemicolon hincrement hr hbody

theorem statement_reads_of_le (tokens : List Token) (hlength : tokens.length ≤ n) :
    (statement Reply stop tokens).Reads fun read s rest =>
      ∃ closed, ReadsAsStmt read (.statement closed s) ∧ (closed = false → NoElse rest) := by
  have hexpression : (expressionStatement Reply stop tokens).Reads fun read s rest =>
      ∃ closed, ReadsAsStmt read (.statement closed s) ∧ (closed = false → NoElse rest) := by
    refine (expressionStatement_reads stop tokens).mono ?_
    rintro _ _ _ ⟨ts, e, semicolon, rfl, rfl, he, hsemicolon⟩
    exact ⟨true, .expression he hsemicolon, by simp⟩
  cases tokens with
  | nil =>
      rw [statement]
      exact hexpression
  | cons t rest =>
      rw [statement]
      split
      · rename_i hword
        exact .afterToken (forStatement_reads hbelow hword rest hlength)
      split
      · rename_i hword
        exact .afterToken (ifStatement_reads hbelow hword rest hlength)
      split
      · rename_i hword
        refine .afterToken ((printStatement_reads hword stop rest).mono ?_)
        intro read s _ hs
        exact ⟨true, hs, by simp⟩
      split
      · rename_i hword
        refine .afterToken ((returnStatement_reads hword stop rest).mono ?_)
        intro read s _ hs
        exact ⟨true, hs, by simp⟩
      split
      · rename_i hword
        exact .afterToken (whileStatement_reads hbelow hword rest hlength)
      split
      · rename_i hbrace
        refine .afterToken (.map (hbelow.block rest hlength) ?_)
        rintro _ ss _ ⟨ts, r, rfl, hss, hr⟩
        exact ⟨true, .block hbrace hss hr, by simp⟩
      · exact hexpression

theorem declaration_reads_of_le (t : Token) (tokens : List Token)
    (hlength : (t :: tokens).length ≤ n)
    (hreports : (declaration Reply stop t tokens).reports = []) :
    ∃ (s : Stmt Unit) (read : List Token), (declaration Reply stop t tokens).statement = some s ∧
      t :: tokens = read ++ (declaration Reply stop t tokens).rest ∧
      ReadsAsStmt read (.declaration s) := by
  have htokens : tokens.length ≤ n := Nat.le_of_succ_le hlength
  rw [declaration] at hreports ⊢
  obtain ⟨s, hs, haccepts⟩ := Reply.recover_reports_eq_nil hreports
  change ∃ s' read, Recovery.statement (Reply.recover _) = some s' ∧ _
  rw [hs]
  suffices hreads : Reply.Reads _ fun read s _ => ReadsAsStmt read (.declaration s) by
    obtain ⟨read, htokens, hread⟩ := hreads s _ haccepts
    exact ⟨s, read, rfl, htokens, hread⟩
  split
  · rename_i hword
    exact .afterToken (classDeclaration_reads hbelow hword tokens htokens)
  split
  · rename_i hword
    refine .afterToken (.map (function_reads hbelow .function tokens htokens) ?_)
    intro read d _ hd
    exact .function hword hd
  split
  · rename_i hword
    refine .afterToken ((variableDeclaration_reads stop tokens).mono ?_)
    intro read s _ hs
    exact .var_ hword hs
  · refine (statement_reads_of_le hbelow (t :: tokens) hlength).mono ?_
    rintro read s _ ⟨closed, hs, _⟩
    exact .statement hs

theorem block_reads_of_le (tokens : List Token) (hlength : tokens.length ≤ n) :
    (block Reply stop tokens).Reads fun read ss _ =>
      ∃ (ts : List Token) (r : Token), read = ts ++ [r] ∧ ReadsAsStmt ts (.declarations ss) ∧
        r.kind = .symbol .rightBrace := by
  cases tokens with
  | nil =>
      rw [block]
      exact Reply.reads_refuse
  | cons t rest =>
      rw [block]
      split
      · rename_i hbrace
        exact .afterToken (Reply.reads_pure ⟨[], t, rfl, .noDeclarations, hbrace⟩)
      · have hdeclaration := declaration_reads_of_le hbelow t rest hlength
        generalize declaration Reply stop t rest = d at hdeclaration
        obtain ⟨first, after, reports, hprogress⟩ := d
        intro ss rest' haccepts
        obtain ⟨hreports, hmapped⟩ := Reply.accepts_reporting_iff.mp haccepts
        obtain ⟨s, read, hs, hread, hdecl⟩ := hdeclaration hreports
        dsimp only at hs hread
        subst hs
        obtain ⟨others, hothers, rfl⟩ := Reply.accepts_map_iff.mp hmapped
        obtain ⟨_, hafter, ts, r, rfl, hothers, hr⟩ :=
          hbelow.block after (Nat.lt_of_lt_of_le hprogress hlength) others rest' hothers
        refine ⟨read ++ (ts ++ [r]), ?_, read ++ ts, r, ?_, .declarations hdecl hothers, hr⟩
        · rw [hread, hafter]
          simp
        · rw [List.append_assoc]

end

theorem readsStatementsBelow (stop : Token) (n : Nat) : ReadsStatementsBelow stop n := by
  induction n with
  | zero => exact ⟨fun _ h => absurd h (Nat.not_lt_zero _), fun _ h => absurd h (Nat.not_lt_zero _)⟩
  | succ n ih =>
      exact ⟨fun tokens h => statement_reads_of_le ih tokens (Nat.le_of_lt_succ h),
        fun tokens h => block_reads_of_le ih tokens (Nat.le_of_lt_succ h)⟩

theorem declaration_reads (stop t : Token) (tokens : List Token)
    (hreports : (declaration Reply stop t tokens).reports = []) :
    ∃ (s : Stmt Unit) (read : List Token), (declaration Reply stop t tokens).statement = some s ∧
      t :: tokens = read ++ (declaration Reply stop t tokens).rest ∧
      ReadsAsStmt read (.declaration s) :=
  declaration_reads_of_le (readsStatementsBelow stop _) t tokens (Nat.le_refl _) hreports

end Lox.Parsing
