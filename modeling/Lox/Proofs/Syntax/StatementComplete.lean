import Lox.Parsing.Program
import Lox.Proofs.Syntax.ExpressionComplete
import Lox.Proofs.Syntax.StatementSound

namespace Lox.Parsing

/-- The kinds of token with which a declaration starts. -/
def startsDeclaration (k : Kind) : Prop :=
  startsStatement k ∨ startsExpression k ∨ k = .symbol .leftBrace

theorem startsDeclaration.ne_rightBrace {k : Kind} (h : startsDeclaration k) :
    k ≠ .symbol .rightBrace := by
  rintro rfl
  rcases h with h | h | h
  · cases h
  · exact not_startsExpression_symbol (.inr (.inr rfl)) h
  · cases h

theorem startsDeclaration.ne_semicolon {k : Kind} (h : startsDeclaration k) :
    k ≠ .symbol .semicolon := by
  rintro rfl
  rcases h with h | h | h
  · cases h
  · exact not_startsExpression_symbol (.inr (.inl rfl)) h
  · cases h

theorem startsDeclaration.ne_else {k : Kind} (h : startsDeclaration k) : k ≠ .keyword .else_ := by
  rintro rfl
  rcases h with h | h | h
  · exact absurd h (by decide)
  · exact absurd h (by decide)
  · cases h

theorem not_startsStatement_of_startsExpression {k : Kind} (h : startsExpression k) :
    ¬startsStatement k := by
  intro hk
  cases k with
  | keyword w => cases w <;> first | exact absurd h (by decide) | exact absurd hk (by decide)
  | _ => cases hk

theorem ne_leftBrace_of_startsExpression {k : Kind} (h : startsExpression k) :
    k ≠ .symbol .leftBrace := by
  rintro rfl
  exact absurd h (by decide)

theorem ReadsAsVariable.cons {ts : List Token} {s : Stmt Unit} (h : ReadsAsVariable ts s) :
    ∃ name rest, ts = name :: rest ∧ name.kind = .identifier := by
  cases h with
  | bare hname _ => exact ⟨_, _, rfl, hname⟩
  | initial hname _ _ _ => exact ⟨_, _, rfl, hname⟩

/-- What a phrase that cannot be empty starts with. -/
def StmtPhrase.Starts (t : Token) : StmtPhrase → Prop
  | .declaration _ => startsDeclaration t.kind
  | .statement _ _ => startsDeclaration t.kind
  | .function _ => t.kind = .identifier
  | _ => True

theorem ReadsAsStmt.starts {ts : List Token} {p : StmtPhrase} (h : ReadsAsStmt ts p)
    (hdeclarations : ∀ ss, p ≠ .declarations ss) (hmethods : ∀ ds, p ≠ .methods ds) :
    ∃ t rest, ts = t :: rest ∧ p.Starts t := by
  cases h with
  | expression he _ =>
      obtain ⟨t, rest, rfl, ht⟩ := he.starts (by simp)
      exact ⟨t, _, rfl, .inr (.inl ht)⟩
  | print hword _ _ | ret hword _ _ | branch hword _ _ _ _ | branches hword _ _ _ _ _ _
  | loop hword _ _ _ _ | forLoop hword _ _ _ _ _ _ _ | var_ hword _ | function hword _
  | class_ hword _ _ _ _ =>
      exact ⟨_, _, rfl, .inl (by rw [hword]; decide)⟩
  | block hl _ _ => exact ⟨_, _, rfl, .inr (.inr hl)⟩
  | body hname _ _ _ _ _ _ => exact ⟨_, _, rfl, hname⟩
  | noDeclarations | declarations _ _ => exact absurd rfl (hdeclarations _)
  | noMethods | methods _ _ => exact absurd rfl (hmethods _)
  | statement h =>
      cases h with
      | expression he _ =>
          obtain ⟨t, rest, rfl, ht⟩ := he.starts (by simp)
          exact ⟨t, _, rfl, .inr (.inl ht)⟩
      | print hword _ _ | ret hword _ _ | branch hword _ _ _ _ | branches hword _ _ _ _ _ _
      | loop hword _ _ _ _ | forLoop hword _ _ _ _ _ _ _ =>
          exact ⟨_, _, rfl, .inl (by rw [hword]; decide)⟩
      | block hl _ _ => exact ⟨_, _, rfl, .inr (.inr hl)⟩

theorem ReadsAsStmt.first_ne {t : Token} {us : List Token} {closed : Bool} {s : Stmt Unit}
    (h : ReadsAsStmt (t :: us) (.statement closed s)) {w : Keyword}
    (hw : w ∈ [Keyword.class_, .fun_, .var_]) : t.kind ≠ .keyword w := by
  have hkeyword {k : Keyword} (hkind : t.kind = .keyword k)
      (hk : k ∉ [Keyword.class_, .fun_, .var_]) : t.kind ≠ .keyword w := by
    intro hkind'
    cases hkind.symm.trans hkind'
    exact hk hw
  generalize htokens : t :: us = tokens at h
  generalize hp : StmtPhrase.statement closed s = p at h
  cases h with
  | expression he _ =>
      obtain ⟨u, rest, rfl, hu⟩ := he.starts (by simp)
      cases htokens
      intro hkind
      refine not_startsStatement_of_startsExpression hu ?_
      rw [hkind]
      simp only [List.mem_cons, List.not_mem_nil, or_false] at hw
      rcases hw with rfl | rfl | rfl <;> decide
  | print hword _ _ | ret hword _ _ | branch hword _ _ _ _ | branches hword _ _ _ _ _ _
  | loop hword _ _ _ _ | forLoop hword _ _ _ _ _ _ _ =>
      cases htokens
      exact hkeyword hword (by decide)
  | block hl _ _ =>
      cases htokens
      rw [hl]
      simp
  | _ => cases hp

theorem ReadsAsStmt.noElse_append {ts rest : List Token} {ss : List (Stmt Unit)}
    (h : ReadsAsStmt ts (.declarations ss)) (hrest : NoElse rest) : NoElse (ts ++ rest) := by
  cases h with
  | noDeclarations => exact hrest
  | declarations hs _ =>
      obtain ⟨t, us, rfl, ht⟩ := hs.starts (by simp) (by simp)
      intro u hu
      cases hu
      exact ht.ne_else

theorem NoElse.of_rightBrace {close : Token} {rest : List Token}
    (h : close.kind = .symbol .rightBrace) : NoElse (close :: rest) := by
  intro t ht
  cases ht
  rw [h]
  decide

theorem optionalExpression_accepts {stop close : Token} {ending : Symbol} {ts rest : List Token}
    {value : Option (Expr Unit)} (h : ReadsAsOption ts value)
    (hending : ending = .rightParen ∨ ending = .semicolon) (hclose : close.kind = .symbol ending) :
    (optionalExpression Reply stop ending (ts ++ close :: rest)).Accepts value (close :: rest) := by
  cases value with
  | none =>
      cases h
      rw [List.nil_append, optionalExpression, if_pos hclose]
      exact Reply.accepts_pure_iff.mpr ⟨rfl, rfl⟩
  | some e =>
      have hends : Ends (close :: rest) :=
        .of_symbol hclose (by rcases hending with h | h <;> simp [h])
      have haccepts := accepts_of_readsAs stop h (close :: rest) hends
      obtain ⟨t, us, rfl, ht⟩ := ReadsAs.starts h (by simp)
      have hne : t.kind ≠ .symbol ending := by
        intro hkind
        rw [hkind] at ht
        exact not_startsExpression_symbol (by rcases hending with h | h <;> simp [h]) ht
      rw [List.cons_append] at haccepts ⊢
      rw [optionalExpression, if_neg hne]
      exact Reply.accepts_map_iff.mpr ⟨e, haccepts, rfl⟩

theorem expressionStatement_accepts {stop semicolon : Token} {ts rest : List Token}
    {e : Expr Unit} (he : ReadsAs ts (.expression e))
    (hsemicolon : semicolon.kind = .symbol .semicolon) :
    (expressionStatement Reply stop (ts ++ semicolon :: rest)).Accepts (.expression e) rest := by
  have haccepts := accepts_of_readsAs stop he (semicolon :: rest) (.of_symbol hsemicolon (.inl rfl))
  rw [expressionStatement]
  refine haccepts.andThen fun _ => ?_
  exact Reply.accepts_map_iff.mpr ⟨semicolon, accepts_take hsemicolon, rfl⟩

theorem printStatement_accepts {stop semicolon : Token} {ts rest : List Token} {e : Expr Unit}
    (he : ReadsAs ts (.expression e)) (hsemicolon : semicolon.kind = .symbol .semicolon) :
    (printStatement Reply stop (ts ++ semicolon :: rest)).Accepts (.print e) rest := by
  have haccepts := accepts_of_readsAs stop he (semicolon :: rest) (.of_symbol hsemicolon (.inl rfl))
  rw [printStatement]
  refine haccepts.andThen fun _ => ?_
  exact Reply.accepts_map_iff.mpr ⟨semicolon, accepts_take hsemicolon, rfl⟩

theorem returnStatement_accepts {stop keyword semicolon : Token} {ts rest : List Token}
    {value : Option (Expr Unit)} (hvalue : ReadsAsOption ts value)
    (hsemicolon : semicolon.kind = .symbol .semicolon) :
    (returnStatement Reply stop keyword (ts ++ semicolon :: rest)).Accepts (.ret keyword value)
      rest := by
  rw [returnStatement]
  refine Reply.Accepts.andThen
    (optionalExpression_accepts hvalue (.inr rfl) hsemicolon) fun _ => ?_
  exact Reply.accepts_map_iff.mpr ⟨semicolon, accepts_take hsemicolon, rfl⟩

theorem variableDeclaration_accepts {stop : Token} {ts rest : List Token} {s : Stmt Unit}
    (h : ReadsAsVariable ts s) : (variableDeclaration Reply stop (ts ++ rest)).Accepts s rest := by
  cases h with
  | @bare name semicolon hname hsemicolon =>
      rw [List.cons_append, variableDeclaration]
      refine Reply.Accepts.andThen (accepts_take hname) fun _ => ?_
      have hinitial : (initialValue Reply stop (semicolon :: rest)).Accepts none
          (semicolon :: rest) := by
        rw [initialValue, if_neg (by rw [hsemicolon]; decide)]
        exact Reply.accepts_pure_iff.mpr ⟨rfl, rfl⟩
      refine hinitial.andThen fun _ => ?_
      exact Reply.accepts_map_iff.mpr ⟨semicolon, accepts_take hsemicolon, rfl⟩
  | @initial name equals semicolon us e hname hequals he hsemicolon =>
      have haccepts := accepts_of_readsAs stop he (semicolon :: rest)
        (.of_symbol hsemicolon (.inl rfl))
      rw [List.cons_append, List.cons_append, List.append_assoc, List.singleton_append,
        variableDeclaration]
      refine Reply.Accepts.andThen (accepts_take hname) fun _ => ?_
      have hinitial : (initialValue Reply stop (equals :: (us ++ semicolon :: rest))).Accepts
          (some e) (semicolon :: rest) := by
        rw [initialValue, if_pos hequals]
        exact Reply.accepts_map_iff.mpr ⟨e, haccepts, rfl⟩
      refine hinitial.andThen fun _ => ?_
      exact Reply.accepts_map_iff.mpr ⟨semicolon, accepts_take hsemicolon, rfl⟩

theorem parameterNames_accepts {stop close : Token} {ts names rest : List Token}
    (h : ReadsAsNames ts names) (hclose : close.kind = .symbol .rightParen) (seen : Nat)
    (hcount : seen + names.length ≤ entryLimit) :
    (parameterNames Reply stop seen (ts ++ close :: rest)).Accepts names (close :: rest) := by
  induction h generalizing seen with
  | last hname =>
      rw [List.singleton_append, parameterNames]
      refine Reply.accepts_reporting_iff.mpr ⟨excess_eq_nil_iff.mpr hcount, ?_⟩
      refine Reply.Accepts.andThen (accepts_take hname) fun _ => ?_
      dsimp only
      rw [if_neg (by rw [hclose]; decide)]
      exact Reply.accepts_pure_iff.mpr ⟨rfl, rfl⟩
  | @more name comma ts names hname hcomma _ ih =>
      rw [List.length_cons] at hcount
      rw [List.cons_append, List.cons_append, parameterNames]
      refine Reply.accepts_reporting_iff.mpr ⟨excess_eq_nil_iff.mpr (by omega), ?_⟩
      refine Reply.Accepts.andThen (accepts_take hname) fun _ => ?_
      dsimp only
      rw [if_pos hcomma]
      exact Reply.accepts_map_iff.mpr ⟨names, ih (seen + 1) (by omega), rfl⟩

theorem parameters_accepts {stop close : Token} {ts names rest : List Token}
    (h : ReadsAsParameters ts names) (hclose : close.kind = .symbol .rightParen) :
    (parameters Reply stop (ts ++ close :: rest)).Accepts names (close :: rest) := by
  cases h with
  | none =>
      rw [List.nil_append, parameters, if_pos hclose]
      exact Reply.accepts_pure_iff.mpr ⟨rfl, rfl⟩
  | some h hcount =>
      have haccepts : (parameterNames Reply stop 0 (ts ++ close :: rest)).Accepts names
          (close :: rest) :=
        parameterNames_accepts h hclose 0 (by simpa using hcount)
      cases h with
      | last hname | more hname _ _ =>
          simp only [List.cons_append] at haccepts ⊢
          rw [parameters, if_neg (by rw [hname]; decide)]
          exact haccepts

theorem forInitial_accepts {stop : Token} {ts rest : List Token} {initial : Option (Stmt Unit)}
    (h : ReadsAsInitial ts initial) :
    (forInitial Reply stop (ts ++ rest)).Accepts initial rest := by
  cases h with
  | none hsemicolon =>
      rw [List.singleton_append, forInitial, if_pos hsemicolon]
      exact Reply.accepts_pure_iff.mpr ⟨rfl, rfl⟩
  | var_ hword hs =>
      rw [List.cons_append, forInitial, if_neg (by rw [hword]; decide), if_pos hword]
      exact Reply.accepts_map_iff.mpr ⟨_, variableDeclaration_accepts hs, rfl⟩
  | @expression semicolon us e he hsemicolon =>
      have haccepts : (expressionStatement Reply stop (us ++ semicolon :: rest)).Accepts _ rest :=
        expressionStatement_accepts he hsemicolon
      obtain ⟨t, vs, rfl, ht⟩ := he.starts (by simp)
      have hne : t.kind ≠ .symbol .semicolon := startsDeclaration.ne_semicolon (.inr (.inl ht))
      have hvar : t.kind ≠ .keyword .var_ := by
        intro hkind
        exact not_startsStatement_of_startsExpression ht (by rw [hkind]; decide)
      rw [List.append_assoc, List.singleton_append]
      rw [List.cons_append] at haccepts ⊢
      rw [forInitial, if_neg hne, if_neg hvar]
      exact Reply.accepts_map_iff.mpr ⟨_, haccepts, rfl⟩

/-- The declaration is read as this statement, with these tokens left and nothing reported. -/
structure Recovery.Gives {tokens : List Token} (r : Recovery Unit tokens) (s : Stmt Unit)
    (rest : List Token) : Prop where
  statement : r.statement = some s
  rest : r.rest = rest
  reports : r.reports = []

theorem Reply.Accepts.recover {t : Token} {tokens rest : List Token}
    {r : Reply true (t :: tokens) (Stmt Unit)} {s : Stmt Unit} (h : r.Accepts s rest) :
    r.recover.Gives s rest := by
  obtain ⟨o, ho⟩ := r
  cases h
  exact ⟨rfl, rfl, rfl⟩

theorem declaration_eq_of_readsAsStmt {t : Token} {us : List Token} {closed : Bool} {s : Stmt Unit}
    (h : ReadsAsStmt (t :: us) (.statement closed s)) (stop : Token) (tokens : List Token) :
    declaration Reply stop t tokens = (statement Reply stop (t :: tokens)).recover := by
  have hfirst {w : Keyword} (hw : w ∈ [Keyword.class_, .fun_, .var_]) : t.kind ≠ .keyword w :=
    h.first_ne hw
  rw [declaration, if_neg (hfirst (by decide)), if_neg (hfirst (by decide)),
    if_neg (hfirst (by decide))]
  rfl

theorem statement_eq_expressionStatement {t : Token} (ht : startsExpression t.kind) (stop : Token)
    (tokens : List Token) :
    statement Reply stop (t :: tokens) = expressionStatement Reply stop (t :: tokens) := by
  have hword {k : Keyword} (hk : startsStatement (.keyword k)) : t.kind ≠ .keyword k := by
    intro hkind
    exact not_startsStatement_of_startsExpression ht (hkind ▸ hk)
  rw [statement, if_neg (hword (by decide)), if_neg (hword (by decide)),
    if_neg (hword (by decide)), if_neg (hword (by decide)), if_neg (hword (by decide)),
    if_neg (ne_leftBrace_of_startsExpression ht)]

/-! ### Statements in statements -/

section

variable {stop : Token} {tokens after rest : List Token}

theorem alternative_accepts_none (hrest : NoElse rest) :
    (alternative Reply stop rest).Accepts none rest := by
  cases rest with
  | nil =>
      rw [alternative]
      exact Reply.accepts_pure_iff.mpr ⟨rfl, rfl⟩
  | cons t after =>
      rw [alternative, if_neg (hrest t rfl)]
      exact Reply.accepts_pure_iff.mpr ⟨rfl, rfl⟩

theorem alternative_accepts_some {other : Token} {s : Stmt Unit}
    (hother : other.kind = .keyword .else_) (hs : (statement Reply stop tokens).Accepts s rest) :
    (alternative Reply stop (other :: tokens)).Accepts (some s) rest := by
  rw [alternative, if_pos hother]
  exact Reply.accepts_map_iff.mpr ⟨s, hs, rfl⟩

theorem ifStatement_accepts {l r : Token} {ts : List Token} {condition : Expr Unit}
    {consequent : Stmt Unit} {alternate : Option (Stmt Unit)} (hl : l.kind = .symbol .leftParen)
    (hcondition : ReadsAs ts (.expression condition)) (hr : r.kind = .symbol .rightParen)
    (hconsequent : (statement Reply stop tokens).Accepts consequent after)
    (halternative : (alternative Reply stop after).Accepts alternate rest) :
    (ifStatement Reply stop (l :: (ts ++ r :: tokens))).Accepts
      (.branch condition consequent alternate) rest := by
  have haccepts := accepts_of_readsAs stop hcondition (r :: tokens)
    (.of_symbol hr (.inr (.inl rfl)))
  rw [ifStatement]
  refine Reply.Accepts.andThen (accepts_take hl) fun _ => haccepts.andThen fun _ => ?_
  refine Reply.Accepts.andThen (accepts_take hr) fun _ => hconsequent.andThen fun _ => ?_
  exact Reply.accepts_map_iff.mpr ⟨alternate, halternative, rfl⟩

theorem whileStatement_accepts {l r : Token} {ts : List Token} {condition : Expr Unit}
    {body : Stmt Unit} (hl : l.kind = .symbol .leftParen)
    (hcondition : ReadsAs ts (.expression condition)) (hr : r.kind = .symbol .rightParen)
    (hbody : (statement Reply stop tokens).Accepts body rest) :
    (whileStatement Reply stop (l :: (ts ++ r :: tokens))).Accepts (.loop condition body) rest := by
  have haccepts := accepts_of_readsAs stop hcondition (r :: tokens)
    (.of_symbol hr (.inr (.inl rfl)))
  rw [whileStatement]
  refine Reply.Accepts.andThen (accepts_take hl) fun _ => haccepts.andThen fun _ => ?_
  refine Reply.Accepts.andThen (accepts_take hr) fun _ => ?_
  exact Reply.accepts_map_iff.mpr ⟨body, hbody, rfl⟩

theorem forStatement_accepts {l semicolon r : Token} {is cs ns : List Token}
    {initial : Option (Stmt Unit)} {condition increment : Option (Expr Unit)} {body : Stmt Unit}
    (hl : l.kind = .symbol .leftParen) (hinitial : ReadsAsInitial is initial)
    (hcondition : ReadsAsOption cs condition) (hsemicolon : semicolon.kind = .symbol .semicolon)
    (hincrement : ReadsAsOption ns increment) (hr : r.kind = .symbol .rightParen)
    (hbody : (statement Reply stop tokens).Accepts body rest) :
    (forStatement Reply stop (l :: (is ++ (cs ++ semicolon :: (ns ++ r :: tokens))))).Accepts
      (forLoop initial condition increment body) rest := by
  rw [forStatement]
  refine Reply.Accepts.andThen (accepts_take hl) fun _ => ?_
  refine Reply.Accepts.andThen (forInitial_accepts hinitial) fun _ => ?_
  refine Reply.Accepts.andThen
    (optionalExpression_accepts hcondition (.inr rfl) hsemicolon) fun _ => ?_
  refine Reply.Accepts.andThen (accepts_take hsemicolon) fun _ => ?_
  refine Reply.Accepts.andThen (optionalExpression_accepts hincrement (.inl rfl) hr) fun _ => ?_
  refine Reply.Accepts.andThen (accepts_take hr) fun _ => ?_
  exact Reply.accepts_map_iff.mpr ⟨body, hbody, rfl⟩

theorem classDeclaration_accepts {name l : Token} {ds : List (FunctionDecl Unit)}
    (hname : name.kind = .identifier) (hl : l.kind = .symbol .leftBrace)
    (hmethods : (methods Reply stop tokens).Accepts ds rest) :
    (classDeclaration Reply stop (name :: l :: tokens)).Accepts (.class_ name ds) rest := by
  rw [classDeclaration]
  refine Reply.Accepts.andThen (accepts_take hname) fun _ => ?_
  refine Reply.Accepts.andThen (accepts_take hl) fun _ => ?_
  exact Reply.accepts_map_iff.mpr ⟨ds, hmethods, rfl⟩

theorem function_accepts {callable : Callable} {name l r brace : Token} {ps params : List Token}
    {ss : List (Stmt Unit)} (hname : name.kind = .identifier) (hl : l.kind = .symbol .leftParen)
    (hparams : ReadsAsParameters ps params) (hr : r.kind = .symbol .rightParen)
    (hbrace : brace.kind = .symbol .leftBrace) (hbody : (block Reply stop tokens).Accepts ss rest) :
    (function Reply stop callable (name :: l :: (ps ++ r :: brace :: tokens))).Accepts
      ⟨name, params, ss⟩ rest := by
  rw [function]
  refine Reply.Accepts.andThen (accepts_take hname) fun _ => ?_
  refine Reply.Accepts.andThen (accepts_take hl) fun _ => ?_
  refine Reply.Accepts.andThen (parameters_accepts hparams hr) fun _ => ?_
  refine Reply.Accepts.andThen (accepts_take hr) fun _ => ?_
  refine Reply.Accepts.andThen (accepts_take hbrace) fun _ => ?_
  exact Reply.accepts_map_iff.mpr ⟨ss, hbody, rfl⟩

theorem methods_accepts_cons {callable : Token} {d : FunctionDecl Unit}
    {ds : List (FunctionDecl Unit)} (hcallable : callable.kind = .identifier)
    (hd : (function Reply stop .method (callable :: tokens)).Accepts d after)
    (hds : (methods Reply stop after).Accepts ds rest) :
    (methods Reply stop (callable :: tokens)).Accepts (d :: ds) rest := by
  rw [methods, if_neg (by rw [hcallable]; decide)]
  refine Reply.Accepts.andThen hd fun _ => ?_
  exact Reply.accepts_map_iff.mpr ⟨ds, hds, rfl⟩

theorem block_accepts_cons {t : Token} {s : Stmt Unit} {ss : List (Stmt Unit)}
    (ht : t.kind ≠ .symbol .rightBrace) (hs : (declaration Reply stop t tokens).Gives s after)
    (hss : (block Reply stop after).Accepts ss rest) :
    (block Reply stop (t :: tokens)).Accepts (s :: ss) rest := by
  rw [block, if_neg ht]
  generalize declaration Reply stop t tokens = d at hs
  obtain ⟨first, after, reports, hprogress⟩ := d
  obtain ⟨rfl, rfl, rfl⟩ := hs
  refine Reply.accepts_reporting_iff.mpr ⟨rfl, ?_⟩
  exact Reply.accepts_map_iff.mpr ⟨ss, hss, rfl⟩

theorem declarationsAfter_of_gives {t : Token} {s : Stmt Unit}
    (hs : (declaration Reply stop t tokens).Gives s after) (before : Array (Stmt Unit))
    (reports : Array Diagnostic) :
    declarationsAfter stop before reports (t :: tokens) =
      declarationsAfter stop (before.push s) reports after := by
  rw [declarationsAfter]
  generalize declaration Reply stop t tokens = d at hs
  obtain ⟨first, after, more, hprogress⟩ := d
  obtain ⟨rfl, rfl, rfl⟩ := hs
  simp

end

/-- What the rule for a phrase does with tokens that stand for it and others after them. -/
def AcceptedAsStmt (stop : Token) (ts : List Token) : StmtPhrase → Prop
  | .declaration s => ∀ t us rest, ts = t :: us → NoElse rest →
      (declaration Reply stop t (us ++ rest)).Gives s rest
  | .statement closed s => ∀ rest, (closed = false → NoElse rest) →
      (statement Reply stop (ts ++ rest)).Accepts s rest
  | .declarations ss =>
      (∀ close rest, close.kind = .symbol .rightBrace →
        (block Reply stop (ts ++ close :: rest)).Accepts ss rest) ∧
      ∀ before reports rest, NoElse rest →
        declarationsAfter stop before reports (ts ++ rest) =
          declarationsAfter stop (before ++ ss) reports rest
  | .function d => ∀ callable rest, (function Reply stop callable (ts ++ rest)).Accepts d rest
  | .methods ds => ∀ close rest, close.kind = .symbol .rightBrace →
      (methods Reply stop (ts ++ close :: rest)).Accepts ds rest

theorem accepts_of_readsAsStmt (stop : Token) {ts : List Token} {p : StmtPhrase}
    (h : ReadsAsStmt ts p) : AcceptedAsStmt stop ts p := by
  induction h with
  | @expression semicolon ts e he hsemicolon =>
      intro rest _
      have haccepts : (expressionStatement Reply stop (ts ++ semicolon :: rest)).Accepts _ rest :=
        expressionStatement_accepts he hsemicolon
      obtain ⟨t, us, rfl, ht⟩ := he.starts (by simp)
      rw [List.append_assoc, List.singleton_append]
      rw [List.cons_append] at haccepts ⊢
      rw [statement_eq_expressionStatement ht]
      exact haccepts
  | print hword he hsemicolon =>
      intro rest _
      rw [List.cons_append, List.append_assoc, List.singleton_append, statement, hword]
      exact printStatement_accepts he hsemicolon
  | ret hword hvalue hsemicolon =>
      intro rest _
      rw [List.cons_append, List.append_assoc, List.singleton_append, statement, hword]
      exact returnStatement_accepts hvalue hsemicolon
  | @block l r ts ss hl _ hr ih =>
      intro rest _
      rw [List.cons_append, List.append_assoc, List.singleton_append, statement, hl]
      exact Reply.accepts_map_iff.mpr ⟨ss, ih.1 r rest hr, rfl⟩
  | branch hword hl hcondition hr _ ih =>
      intro rest hrest
      rw [List.cons_append, List.cons_append, List.append_assoc, List.cons_append, statement,
        hword]
      exact ifStatement_accepts hl hcondition hr (ih rest fun _ => hrest rfl)
        (alternative_accepts_none (hrest rfl))
  | branches hword hl hcondition hr _ hother _ ih ihAlternative =>
      intro rest hrest
      rw [List.cons_append, List.cons_append, List.append_assoc, List.cons_append,
        List.append_assoc, List.cons_append, statement, hword]
      exact ifStatement_accepts hl hcondition hr (ih _ (by simp))
        (alternative_accepts_some hother (ihAlternative rest hrest))
  | loop hword hl hcondition hr _ ih =>
      intro rest hrest
      rw [List.cons_append, List.cons_append, List.append_assoc, List.cons_append, statement,
        hword]
      exact whileStatement_accepts hl hcondition hr (ih rest hrest)
  | forLoop hword hl hinitial hcondition hsemicolon hincrement hr _ ih =>
      intro rest hrest
      rw [List.cons_append, List.cons_append, List.append_assoc, List.append_assoc,
        List.cons_append, List.append_assoc, List.cons_append, statement, hword]
      exact forStatement_accepts hl hinitial hcondition hsemicolon hincrement hr (ih rest hrest)
  | statement h ih =>
      rintro t us rest rfl hrest
      rw [declaration_eq_of_readsAsStmt h]
      exact (ih rest fun _ => hrest).recover
  | var_ hword h =>
      rintro t us rest heq _
      cases heq
      rw [declaration, hword]
      exact Reply.Accepts.recover (variableDeclaration_accepts h)
  | @function word ts d hword _ ih =>
      rintro t us rest heq _
      cases heq
      rw [declaration, hword]
      exact Reply.Accepts.recover (Reply.accepts_map_iff.mpr ⟨d, ih .function rest, rfl⟩)
  | class_ hword hname hl _ hr ih =>
      rintro t us rest heq _
      cases heq
      rw [declaration, hword, List.cons_append, List.cons_append, List.append_assoc,
        List.singleton_append]
      exact Reply.Accepts.recover (classDeclaration_accepts hname hl (ih _ rest hr))
  | noDeclarations =>
      refine ⟨fun close rest hclose => ?_, fun before reports rest _ => by simp⟩
      rw [List.nil_append, block, if_pos hclose]
      exact Reply.accepts_pure_iff.mpr ⟨rfl, rfl⟩
  | @declarations ts us s ss hs hss ih ihRest =>
      obtain ⟨t, vs, rfl, ht⟩ := hs.starts (by simp) (by simp)
      refine ⟨fun close rest hclose => ?_, fun before reports rest hrest => ?_⟩
      · have hgives := ih t vs (us ++ close :: rest) rfl (hss.noElse_append (.of_rightBrace hclose))
        rw [List.append_assoc]
        exact block_accepts_cons ht.ne_rightBrace hgives (ihRest.1 close rest hclose)
      · have hgives := ih t vs (us ++ rest) rfl (hss.noElse_append hrest)
        rw [List.append_assoc, List.cons_append, declarationsAfter_of_gives hgives]
        simpa using ihRest.2 (before.push s) reports rest hrest
  | noMethods =>
      intro close rest hclose
      rw [List.nil_append, methods, if_pos hclose]
      exact Reply.accepts_pure_iff.mpr ⟨rfl, rfl⟩
  | @methods ts us d ds hd _ ih ihRest =>
      intro close rest hclose
      have haccepts := ih .method (us ++ close :: rest)
      obtain ⟨t, vs, rfl, ht⟩ := hd.starts (by simp) (by simp)
      rw [List.append_assoc]
      exact methods_accepts_cons ht haccepts (ihRest close rest hclose)
  | @body name l r open_ close ps ts params ss hname hl hparams hr hopen _ hclose ih =>
      intro callable rest
      rw [List.cons_append, List.cons_append, List.append_assoc, List.cons_append,
        List.cons_append, List.append_assoc, List.singleton_append]
      exact function_accepts hname hl hparams hr hopen (ih.1 close rest hclose)

end Lox.Parsing
