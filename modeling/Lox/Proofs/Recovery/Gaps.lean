import Lox.Proofs.Recovery.Drops
import Lox.Proofs.Recovery.Omissions

namespace Lox.Parsing

variable {stop : Token} {tokens rest : List Token}

section

variable {ts : List Token} {e : Expr Unit} (hrest : Follows rest)
include hrest

theorem takeSemicolon_refuses (place : Place) :
    (takeSymbol Reply stop .semicolon place rest).Refuses
      (.syntactic (here stop rest) (.missing .semicolon place)) rest :=
  takeSymbol_refuses (hrest.ne_symbol (by decide))

theorem expressionStatement_refuses (he : ReadsAs ts (.expression e)) :
    (expressionStatement Reply stop (ts ++ rest)).Refuses
      (.syntactic (here stop rest) (.missing .semicolon .afterExpression)) rest :=
  Reply.Accepts.andThen_refuses (accepts_of_readsAs stop he rest hrest.ends) fun _ =>
    (takeSemicolon_refuses hrest _).map

theorem printStatement_refuses (he : ReadsAs ts (.expression e)) :
    (printStatement Reply stop (ts ++ rest)).Refuses
      (.syntactic (here stop rest) (.missing .semicolon .afterValue)) rest :=
  Reply.Accepts.andThen_refuses (accepts_of_readsAs stop he rest hrest.ends) fun _ =>
    (takeSemicolon_refuses hrest _).map

theorem returnStatement_refuses (keyword : Token) {value : Option (Expr Unit)}
    (hvalue : ReadsAsOption ts value) :
    ∃ fault : SyntaxFault, fault.OfGap ∧
      (returnStatement Reply stop keyword (ts ++ rest)).Refuses (.syntactic (here stop rest) fault)
        rest := by
  have hne : ∀ t ∈ rest.head?, t.kind ≠ .symbol .semicolon := hrest.ne_symbol (by decide)
  cases value with
  | none =>
      cases hvalue
      have hexpression : (expression Reply stop rest).Refuses
          (.syntactic (here stop rest) .missingExpression) rest :=
        expression_refuses hrest.not_startsExpression
      refine ⟨_, .value, Reply.Refuses.andThen ?_⟩
      rw [List.nil_append]
      cases rest with
      | nil =>
          rw [optionalExpression]
          exact hexpression.map.relax
      | cons t after =>
          rw [optionalExpression, if_neg (hne t rfl)]
          exact hexpression.map.relax
  | some e =>
      have haccepts := accepts_of_readsAs stop hvalue rest hrest.ends
      have hoption : (optionalExpression Reply stop .semicolon (ts ++ rest)).Accepts (some e)
          rest := by
        obtain ⟨t, us, rfl, ht⟩ := ReadsAs.starts hvalue (by simp)
        rw [List.cons_append] at haccepts ⊢
        rw [optionalExpression, if_neg (startsDeclaration.ne_semicolon (.inr (.inl ht)))]
        exact Reply.accepts_map_iff.mpr ⟨e, haccepts, rfl⟩
      exact ⟨_, .semicolon _, hoption.andThen_refuses fun _ => (takeSemicolon_refuses hrest _).map⟩

theorem variableDeclaration_refuses {semicolon : Token} {s : Stmt Unit}
    (h : ReadsAsVariable (ts ++ [semicolon]) s) :
    (variableDeclaration Reply stop (ts ++ rest)).Refuses
      (.syntactic (here stop rest) (.missing .semicolon .afterVariable)) rest := by
  have hequal : ∀ t ∈ rest.head?, t.kind ≠ .symbol .equal := hrest.ne_symbol (by decide)
  generalize hus : ts ++ [semicolon] = us at h
  cases h with
  | @bare name last hname _ =>
      obtain ⟨rfl, -⟩ := List.append_singleton_inj.mp
        (show ts ++ [semicolon] = [name] ++ [last] from hus)
      have hinitial : (initialValue Reply stop rest).Accepts none rest := by
        cases rest with
        | nil =>
            rw [initialValue]
            exact Reply.accepts_pure_iff.mpr ⟨rfl, rfl⟩
        | cons t after =>
            rw [initialValue, if_neg (hequal t rfl)]
            exact Reply.accepts_pure_iff.mpr ⟨rfl, rfl⟩
      exact (accepts_take hname).andThen_refuses fun _ => hinitial.andThen_refuses fun _ =>
        (takeSemicolon_refuses hrest _).map
  | @initial name equals last us e hname hequals he _ =>
      obtain ⟨rfl, -⟩ := List.append_singleton_inj.mp
        (show ts ++ [semicolon] = (name :: equals :: us) ++ [last] from hus)
      have hinitial : (initialValue Reply stop (equals :: (us ++ rest))).Accepts (some e) rest := by
        rw [initialValue, if_pos hequals]
        exact Reply.accepts_map_iff.mpr ⟨e, accepts_of_readsAs stop he rest hrest.ends, rfl⟩
      exact (accepts_take hname).andThen_refuses fun _ => hinitial.andThen_refuses fun _ =>
        (takeSemicolon_refuses hrest _).map

end

theorem Reply.Accepts.val_andThen {α β : Type} {takes takes' : Bool}
    {first : Reply takes tokens α} {next : α → (rest : List Token) → Reply takes' rest β}
    {value : α} (h : first.Accepts value rest) :
    (first.andThen fun value rest _ => next value rest).val = (next value rest).val := by
  obtain ⟨o, ho⟩ := first
  cases h
  change (next value rest).val.reporting [] = (next value rest).val
  cases (next value rest).val <;> rfl

section

variable {word l r : Token} {ts : List Token} {condition : Expr Unit}
  (hl : l.kind = .symbol .leftParen) (hcondition : ReadsAs ts (.expression condition))
  (hr : r.kind = .symbol .rightParen)
include hl hcondition hr

theorem val_statement_if (hword : word.kind = .keyword .if_) (tokens : List Token) :
    (statement Reply stop (word :: l :: (ts ++ r :: tokens))).val =
      ((statement Reply stop tokens).andThen fun consequent rest _ =>
        (alternative Reply stop rest).map (.branch condition consequent)).val := by
  have hends : Ends (r :: tokens) := .of_symbol hr (.inr (.inl rfl))
  rw [statement, hword]
  change (ifStatement Reply stop (l :: (ts ++ r :: tokens))).val = _
  rw [ifStatement]
  refine (Reply.Accepts.val_andThen (accepts_take hl)).trans ?_
  refine (Reply.Accepts.val_andThen (accepts_of_readsAs stop hcondition _ hends)).trans ?_
  exact Reply.Accepts.val_andThen (accepts_take hr)

theorem val_statement_while (hword : word.kind = .keyword .while_) (tokens : List Token) :
    (statement Reply stop (word :: l :: (ts ++ r :: tokens))).val =
      ((statement Reply stop tokens).map (.loop condition)).val := by
  have hends : Ends (r :: tokens) := .of_symbol hr (.inr (.inl rfl))
  rw [statement, hword]
  change (whileStatement Reply stop (l :: (ts ++ r :: tokens))).val = _
  rw [whileStatement]
  refine (Reply.Accepts.val_andThen (accepts_take hl)).trans ?_
  refine (Reply.Accepts.val_andThen (accepts_of_readsAs stop hcondition _ hends)).trans ?_
  exact Reply.Accepts.val_andThen (accepts_take hr)

end

theorem val_statement_for {word l second r : Token} {is cs ns : List Token}
    {initial : Option (Stmt Unit)} {condition increment : Option (Expr Unit)}
    (hword : word.kind = .keyword .for_) (hl : l.kind = .symbol .leftParen)
    (hinitial : ReadsAsInitial is initial) (hcondition : ReadsAsOption cs condition)
    (hsecond : second.kind = .symbol .semicolon) (hincrement : ReadsAsOption ns increment)
    (hr : r.kind = .symbol .rightParen) (tokens : List Token) :
    (statement Reply stop (word :: l :: (is ++ (cs ++ second :: (ns ++ r :: tokens))))).val =
      ((statement Reply stop tokens).map (forLoop initial condition increment)).val := by
  rw [statement, hword]
  change (forStatement Reply stop (l :: (is ++ (cs ++ second :: (ns ++ r :: tokens))))).val = _
  rw [forStatement]
  refine (Reply.Accepts.val_andThen (accepts_take hl)).trans ?_
  refine (Reply.Accepts.val_andThen (forInitial_accepts hinitial)).trans ?_
  refine (Reply.Accepts.val_andThen
    (optionalExpression_accepts hcondition (.inr rfl) hsecond)).trans ?_
  refine (Reply.Accepts.val_andThen (accepts_take hsecond)).trans ?_
  refine (Reply.Accepts.val_andThen
    (optionalExpression_accepts hincrement (.inl rfl) hr)).trans ?_
  exact Reply.Accepts.val_andThen (accepts_take hr)

theorem ReadsAsStmt.exists_cons {semicolon : Token} {ts : List Token} {s : Stmt Unit}
    (h : ReadsAsStmt (ts ++ [semicolon]) (.declaration s))
    (hsemicolon : semicolon.kind = .symbol .semicolon) :
    ∃ t more, ts = t :: more ∧ startsDeclaration t.kind := by
  obtain ⟨t, tail, htokens, ht⟩ := h.starts (by simp) (by simp)
  have ht : startsDeclaration t.kind := ht
  obtain ⟨more, rfl, -⟩ := skip_token hsemicolon ht.ne_semicolon htokens.symm
  exact ⟨t, more, rfl, ht⟩

/-- What the rule for a phrase does with tokens that lack the last semicolon. Phrases that are
enclosed in braces do not end with one. -/
def RefusedAsStmt (stop : Token) (ts rest : List Token) : StmtPhrase → Prop
  | .declaration _ => ∃ fault : SyntaxFault, fault.OfGap ∧
      Drops stop (ts ++ rest) [.syntactic (here stop rest) fault] (synchronize rest)
  | .statement _ _ => ∃ fault : SyntaxFault, fault.OfGap ∧
      (statement Reply stop (ts ++ rest)).Refuses (.syntactic (here stop rest) fault) rest
  | .function _ => False
  | _ => True

section

variable {word l r second : Token} {us ts more : List Token} {condition : Expr Unit}
  {closed : Bool} {s : Stmt Unit}

theorem refused_expressionStatement {e : Expr Unit} (hrest : Follows rest)
    (he : ReadsAs ts (.expression e)) :
    RefusedAsStmt stop ts rest (.statement closed (.expression e)) := by
  have hrefuses : (expressionStatement Reply stop (ts ++ rest)).Refuses _ rest :=
    expressionStatement_refuses hrest he
  obtain ⟨t, vs, rfl, ht⟩ := he.starts (by simp)
  refine ⟨_, .semicolon .afterExpression, ?_⟩
  rw [List.cons_append] at hrefuses ⊢
  rw [statement_eq_expressionStatement ht]
  exact hrefuses

theorem refused_branch (hword : word.kind = .keyword .if_) (hl : l.kind = .symbol .leftParen)
    (hcondition : ReadsAs ts (.expression condition)) (hr : r.kind = .symbol .rightParen)
    (ih : RefusedAsStmt stop more rest (.statement closed s)) :
    RefusedAsStmt stop (word :: l :: (ts ++ r :: more)) rest
      (.statement false (.branch condition s none)) := by
  obtain ⟨fault, hfault, hrefuses⟩ := ih
  refine ⟨fault, hfault, ?_⟩
  rw [List.cons_append, List.cons_append, List.append_assoc, List.cons_append]
  exact (val_statement_if hl hcondition hr hword _).trans hrefuses.andThen

theorem refused_branches {other : Token} {consequent : Stmt Unit}
    (hword : word.kind = .keyword .if_) (hl : l.kind = .symbol .leftParen)
    (hcondition : ReadsAs ts (.expression condition)) (hr : r.kind = .symbol .rightParen)
    (hconsequent : ReadsAsStmt us (.statement true consequent))
    (hother : other.kind = .keyword .else_)
    (ih : RefusedAsStmt stop more rest (.statement closed s)) :
    RefusedAsStmt stop (word :: l :: (ts ++ r :: (us ++ other :: more))) rest
      (.statement closed (.branch condition consequent (some s))) := by
  obtain ⟨fault, hfault, hrefuses⟩ := ih
  have halternative : (alternative Reply stop (other :: (more ++ rest))).Refuses
      (.syntactic (here stop rest) fault) rest := by
    rw [alternative, if_pos hother]
    exact hrefuses.map
  have haccepts := accepts_of_readsAsStmt stop hconsequent (other :: (more ++ rest)) (by simp)
  refine ⟨fault, hfault, ?_⟩
  rw [List.cons_append, List.cons_append, List.append_assoc, List.cons_append,
    List.append_assoc, List.cons_append]
  exact (val_statement_if hl hcondition hr hword _).trans
    (haccepts.andThen_refuses fun _ => halternative.map)

theorem refused_loop (hword : word.kind = .keyword .while_) (hl : l.kind = .symbol .leftParen)
    (hcondition : ReadsAs ts (.expression condition)) (hr : r.kind = .symbol .rightParen)
    (ih : RefusedAsStmt stop more rest (.statement closed s)) :
    RefusedAsStmt stop (word :: l :: (ts ++ r :: more)) rest
      (.statement closed (.loop condition s)) := by
  obtain ⟨fault, hfault, hrefuses⟩ := ih
  refine ⟨fault, hfault, ?_⟩
  rw [List.cons_append, List.cons_append, List.append_assoc, List.cons_append]
  exact (val_statement_while hl hcondition hr hword _).trans hrefuses.map

theorem refused_forLoop {is cs ns : List Token} {initial : Option (Stmt Unit)}
    {clause increment : Option (Expr Unit)} (hword : word.kind = .keyword .for_)
    (hl : l.kind = .symbol .leftParen) (hinitial : ReadsAsInitial is initial)
    (hclause : ReadsAsOption cs clause) (hsecond : second.kind = .symbol .semicolon)
    (hincrement : ReadsAsOption ns increment) (hr : r.kind = .symbol .rightParen)
    (ih : RefusedAsStmt stop more rest (.statement closed s)) :
    RefusedAsStmt stop (word :: l :: (is ++ (cs ++ second :: (ns ++ r :: more)))) rest
      (.statement closed (forLoop initial clause increment s)) := by
  obtain ⟨fault, hfault, hrefuses⟩ := ih
  refine ⟨fault, hfault, ?_⟩
  rw [List.cons_append, List.cons_append, List.append_assoc, List.append_assoc,
    List.cons_append, List.append_assoc, List.cons_append]
  exact (val_statement_for hword hl hinitial hclause hsecond hincrement hr _).trans hrefuses.map

theorem refused_variable {semicolon : Token} (hrest : Follows rest)
    (hword : word.kind = .keyword .var_) (h : ReadsAsVariable (more ++ [semicolon]) s) :
    RefusedAsStmt stop (word :: more) rest (.declaration s) := by
  have hrefuses : (variableDeclaration Reply stop (more ++ rest)).Refuses _ rest :=
    variableDeclaration_refuses hrest h
  refine ⟨_, .semicolon .afterVariable, ?_⟩
  refine drops_of_refuses (r := .afterToken word (variableDeclaration Reply stop (more ++ rest)))
    (by rw [hword]; decide) ?_ hrefuses
  rw [declaration, hword]
  rfl

end

theorem refused_of_readsAsStmt (stop : Token) {semicolon : Token} {us ts : List Token}
    {p : StmtPhrase} (h : ReadsAsStmt us p) (hsemicolon : semicolon.kind = .symbol .semicolon)
    (hus : us = ts ++ [semicolon]) (hrest : Follows rest) : RefusedAsStmt stop ts rest p := by
  induction h generalizing ts with
  | expression he _ =>
      obtain ⟨rfl, -⟩ := List.append_singleton_inj.mp hus
      exact refused_expressionStatement hrest he
  | @print word last vs e hword he _ =>
      obtain ⟨rfl, -⟩ := List.append_singleton_inj.mp
        (show (word :: vs) ++ [last] = ts ++ [semicolon] from hus)
      refine ⟨_, .semicolon .afterValue, ?_⟩
      rw [List.cons_append, statement, hword]
      exact printStatement_refuses hrest he
  | @ret word last vs value hword hvalue _ =>
      obtain ⟨rfl, -⟩ := List.append_singleton_inj.mp
        (show (word :: vs) ++ [last] = ts ++ [semicolon] from hus)
      obtain ⟨fault, hfault, hrefuses⟩ := returnStatement_refuses hrest word hvalue
      refine ⟨fault, hfault, ?_⟩
      rw [List.cons_append, statement, hword]
      exact hrefuses
  | @block l r vs ss hl _ hr _ =>
      obtain ⟨-, rfl⟩ := List.append_singleton_inj.mp
        (show (l :: vs) ++ [r] = ts ++ [semicolon] from hus)
      cases hr.symm.trans hsemicolon
  | branch hword hl hcondition hr _ ih =>
      obtain ⟨more, rfl, hmore⟩ := skip_condition hsemicolon hword hl hcondition hr hus
      exact refused_branch hword hl hcondition hr (ih hmore)
  | branches hword hl hcondition hr hconsequent hother _ _ ih =>
      obtain ⟨m, rfl, hmore⟩ := skip_condition hsemicolon hword hl hcondition hr hus
      rcases mem_append_split hmore with ⟨m', -, hnil⟩ | ⟨m', rfl, hlater⟩
      · simp at hnil
      obtain ⟨more, rfl, hlast⟩ := skip_token hsemicolon (by rw [hother]; decide) hlater
      exact refused_branches hword hl hcondition hr hconsequent hother (ih hlast)
  | loop hword hl hcondition hr _ ih =>
      obtain ⟨more, rfl, hmore⟩ := skip_condition hsemicolon hword hl hcondition hr hus
      exact refused_loop hword hl hcondition hr (ih hmore)
  | forLoop hword hl hinitial hcondition hsecond hincrement hr _ ih =>
      obtain ⟨more, rfl, hmore⟩ := skip_clauses hsemicolon hword hl hinitial hcondition hsecond
        hincrement hr hus rest hrest
      exact refused_forLoop hword hl hinitial hcondition hsecond hincrement hr (ih hmore)
  | statement h ih =>
      obtain ⟨fault, hfault, hrefuses⟩ := ih hus
      rw [hus] at h
      obtain ⟨t, more, rfl, ht⟩ := (ReadsAsStmt.statement h).exists_cons hsemicolon
      rw [List.cons_append] at h
      exact ⟨fault, hfault, drops_of_refuses ht.ne_rightBrace
        (declaration_eq_of_readsAsStmt h stop _) hrefuses⟩
  | var_ hword h =>
      obtain ⟨more, rfl, hmore⟩ := skip_token hsemicolon (by rw [hword]; decide) hus
      exact refused_variable hrest hword (hmore ▸ h)
  | function hword _ ih =>
      obtain ⟨more, rfl, hmore⟩ := skip_token hsemicolon (by rw [hword]; decide) hus
      exact (ih hmore).elim
  | @class_ word name l r vs ds hword hname hl _ hr _ =>
      obtain ⟨-, rfl⟩ := List.append_singleton_inj.mp
        (show (word :: name :: l :: vs) ++ [r] = ts ++ [semicolon] from hus)
      cases hr.symm.trans hsemicolon
  | noDeclarations | declarations _ _ | noMethods | methods _ _ => trivial
  | @body name l r open_ close ps vs params ss hname hl hparams hr hopen _ hclose _ =>
      obtain ⟨-, rfl⟩ := List.append_singleton_inj.mp
        (show (name :: l :: (ps ++ r :: open_ :: vs)) ++ [close] = ts ++ [semicolon] by
          simpa using hus)
      cases hclose.symm.trans hsemicolon

end Lox.Parsing
