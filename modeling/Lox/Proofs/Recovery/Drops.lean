import Lox.Proofs.Recovery.Refusals

namespace Lox.Parsing

variable {α β : Type} {takes takes' : Bool} {stop : Token} {tokens tokens' rest : List Token}
  {faults : List Diagnostic}

theorem Outcome.reporting_append (o : Outcome α) (first second : List Diagnostic) :
    o.reporting (first ++ second) = (o.reporting second).reporting first := by
  cases o <;> simp [Outcome.reporting]

/-- The second reply is the first where these faults had been reported before. -/
def Reply.Shifts (faults : List Diagnostic) (r : Reply takes tokens α)
    (r' : Reply takes' tokens' α) : Prop :=
  r'.val = r.val.reporting faults

namespace Reply.Shifts

theorem map {r : Reply takes tokens α} {r' : Reply takes tokens' α} {f : α → β}
    (h : r.Shifts faults r') : (r.map f).Shifts faults (r'.map f) := by
  show r'.val.map f = (r.val.map f).reporting faults
  rw [h]
  cases r.val <;> rfl

theorem afterToken {t : Token} {r : Reply takes tokens α} {r' : Reply takes tokens' α}
    (h : r.Shifts faults r') :
    (r.afterToken t : Reply takes' (t :: tokens) α).Shifts faults
      (r'.afterToken t : Reply takes' (t :: tokens') α) := h

theorem andThen {r : Reply takes tokens α} {r' : Reply takes tokens' α}
    {next : α → (rest : List Token) → Reply takes' rest β} (h : r.Shifts faults r') :
    (r.andThen fun value rest _ => next value rest).Shifts faults
      (r'.andThen fun value rest _ => next value rest) := by
  obtain ⟨o, ho⟩ := r
  obtain ⟨o', ho'⟩ := r'
  obtain rfl : o' = o.reporting faults := h
  cases o with
  | refused fault rest reports => rfl
  | accepted value rest reports => exact Outcome.reporting_append _ _ _

end Reply.Shifts

theorem Reply.Accepts.andThen_shifts {first : Reply takes tokens α} {first' : Reply takes tokens' α}
    {next : α → (rest : List Token) → rest.length + takes.toNat ≤ tokens.length →
      Reply takes' rest β}
    {next' : α → (rest : List Token) → rest.length + takes.toNat ≤ tokens'.length →
      Reply takes' rest β} {value : α} {after after' : List Token}
    (hfirst : first.Accepts value after) (hfirst' : first'.Accepts value after')
    (hnext : ∀ h h', (next value after h).Shifts faults (next' value after' h')) :
    (first.andThen next).Shifts faults (first'.andThen next') := by
  obtain ⟨o, ho⟩ := first
  obtain ⟨o', ho'⟩ := first'
  cases hfirst
  cases hfirst'
  have hshifts := hnext ho ho'
  rw [Reply.Shifts] at hshifts
  change (next' value after' ho').val.reporting [] =
    ((next value after ho).val.reporting []).reporting faults
  rw [hshifts, ← Outcome.reporting_append, ← Outcome.reporting_append, List.append_nil,
    List.nil_append]

/-- The same comes of the second declaration, with these faults reported before. -/
structure Recovery.Shifts (faults : List Diagnostic) (d : Recovery Unit tokens)
    (d' : Recovery Unit tokens') : Prop where
  statement : d'.statement = d.statement
  rest : d'.rest = d.rest
  reports : d'.reports = faults ++ d.reports

theorem Reply.Shifts.recover {t t' : Token} {r : Reply true (t :: tokens) (Stmt Unit)}
    {r' : Reply true (t' :: tokens') (Stmt Unit)} (h : r.Shifts faults r') :
    r.recover.Shifts faults r'.recover := by
  obtain ⟨o, ho⟩ := r
  obtain ⟨o', ho'⟩ := r'
  obtain rfl : o' = o.reporting faults := h
  cases o with
  | accepted s rest reports => exact ⟨rfl, rfl, rfl⟩
  | refused fault rest reports => exact ⟨rfl, rfl, List.append_assoc _ _ _⟩

theorem append_list_append (xs : Array α) (first second : List α) :
    xs ++ (first ++ second) = xs ++ first ++ second :=
  Array.ext' (by simp)

/-- Declarations are read from `tokens` as they are from `rest`, after these faults. -/
structure Drops (stop : Token) (tokens : List Token) (faults : List Diagnostic)
    (rest : List Token) : Prop where
  block : (block Reply stop rest).Shifts faults (block Reply stop tokens)
  declarations : ∀ statements reports, declarationsAfter stop statements reports tokens =
    declarationsAfter stop statements (reports ++ faults) rest

theorem Drops.refl : Drops stop tokens [] tokens := by
  refine ⟨?_, fun statements reports => by simp⟩
  rw [Reply.Shifts]
  cases (Parsing.block Reply stop tokens).val <;> rfl

theorem Drops.trans {faults' : List Diagnostic} {middle : List Token}
    (h : Drops stop tokens faults middle) (h' : Drops stop middle faults' rest) :
    Drops stop tokens (faults ++ faults') rest := by
  refine ⟨?_, fun statements reports => ?_⟩
  · rw [Reply.Shifts, Outcome.reporting_append, ← h'.block]
    exact h.block
  · rw [h.declarations, h'.declarations, append_list_append]

section

variable {t : Token} {s : Stmt Unit}

theorem val_block (ht : t.kind ≠ .symbol .rightBrace) (tokens : List Token) :
    (block Reply stop (t :: tokens)).val =
      ((block Reply stop (declaration Reply stop t tokens).rest).val.map
        ((declaration Reply stop t tokens).statement.toList ++ ·)).reporting
          (declaration Reply stop t tokens).reports := by
  rw [block, if_neg ht]
  rfl

theorem declarationsAfter_cons (statements : Array (Stmt Unit)) (reports : Array Diagnostic)
    (tokens : List Token) :
    declarationsAfter stop statements reports (t :: tokens) =
      declarationsAfter stop (statements ++ (declaration Reply stop t tokens).statement.toList)
        (reports ++ (declaration Reply stop t tokens).reports)
        (declaration Reply stop t tokens).rest := by
  rw [declarationsAfter]

theorem declarationsAfter_eq (statements : Array (Stmt Unit)) (reports : Array Diagnostic)
    (tokens : List Token) :
    declarationsAfter stop statements reports tokens =
      ⟨statements.toList ++ (declarationsAfter stop #[] #[] tokens).value,
        reports.toList ++ (declarationsAfter stop #[] #[] tokens).reports⟩ := by
  cases tokens with
  | nil => simp [declarationsAfter]
  | cons t tokens =>
      have hprogress : (declaration Reply stop t tokens).rest.length < (t :: tokens).length :=
        (declaration Reply stop t tokens).progress
      rw [declarationsAfter_cons, declarationsAfter_cons, declarationsAfter_eq,
        declarationsAfter_eq (#[] ++ _) (#[] ++ _)]
      simp
termination_by tokens.length
decreasing_by all_goals assumption

theorem drops_of_statement_eq_none (ht : t.kind ≠ .symbol .rightBrace)
    (h : (declaration Reply stop t tokens).statement = none) :
    Drops stop (t :: tokens) (declaration Reply stop t tokens).reports
      (declaration Reply stop t tokens).rest := by
  refine ⟨?_, fun statements reports => ?_⟩
  · rw [Reply.Shifts, val_block ht, h]
    cases (block Reply stop (declaration Reply stop t tokens).rest).val <;> rfl
  · rw [declarationsAfter_cons, h]
    simp

theorem Recovery.Shifts.drops (ht : t.kind ≠ .symbol .rightBrace)
    (h : (declaration Reply stop t tokens).Shifts faults (declaration Reply stop t tokens')) :
    Drops stop (t :: tokens') faults (t :: tokens) := by
  refine ⟨?_, fun statements reports => ?_⟩
  · rw [Reply.Shifts, val_block ht, val_block ht, h.statement, h.rest, h.reports,
      Outcome.reporting_append]
  · rw [declarationsAfter_cons, declarationsAfter_cons, h.statement, h.rest, h.reports,
      append_list_append]

theorem Recovery.Gives.drops (ht : t.kind ≠ .symbol .rightBrace) {after after' : List Token}
    (h : (declaration Reply stop t tokens).Gives s after)
    (h' : (declaration Reply stop t tokens').Gives s after')
    (hdrops : Drops stop after' faults after) :
    Drops stop (t :: tokens') faults (t :: tokens) := by
  refine ⟨?_, fun statements reports => ?_⟩
  · rw [Reply.Shifts, val_block ht, val_block ht, h.statement, h.rest, h.reports, h'.statement,
      h'.rest, h'.reports, hdrops.block]
    cases (block Reply stop after).val <;> rfl
  · rw [declarationsAfter_cons, declarationsAfter_cons, h.statement, h.rest, h.reports,
      h'.statement, h'.rest, h'.reports, hdrops.declarations]
    simp

end

/-- After a fault reading settles where no `else` comes: each one that does is another fault. -/
inductive Settles : List Token → List Diagnostic → List Token → Prop
  | done {tokens : List Token} (h : NoElse tokens) : Settles tokens [] tokens
  | other {t : Token} {tokens rest : List Token} {faults : List Diagnostic}
      (ht : t.kind = .keyword .else_) (h : Settles (synchronize (t :: tokens)) faults rest) :
      Settles (t :: tokens) (.syntactic t .missingExpression :: faults) rest

theorem exists_settles (tokens : List Token) : ∃ faults rest, Settles tokens faults rest := by
  cases tokens with
  | nil => exact ⟨[], [], .done (by simp [NoElse])⟩
  | cons t tokens =>
      by_cases ht : t.kind = .keyword .else_
      · have hlength : (synchronize (t :: tokens)).length < (t :: tokens).length :=
          length_synchronize_lt (Nat.le_refl _) (Nat.succ_pos _)
        obtain ⟨faults, rest, h⟩ := exists_settles (synchronize (t :: tokens))
        exact ⟨_, rest, .other ht h⟩
      · refine ⟨[], _, .done fun u hu => ?_⟩
        cases hu
        exact ht
termination_by tokens.length
decreasing_by assumption

theorem Settles.noElse (h : Settles tokens faults rest) : NoElse rest := by
  induction h with
  | done h => exact h
  | other _ _ ih => exact ih

theorem Settles.eq_of_eq_nil (h : Settles tokens faults rest) (hfaults : faults = []) :
    rest = tokens := by
  cases h with
  | done _ => rfl
  | other _ _ => cases hfaults

theorem Reply.Refuses.recover {t : Token} {fault : Diagnostic}
    {r : Reply true (t :: tokens) (Stmt Unit)} (h : r.Refuses fault rest) :
    r.recover.statement = none ∧ r.recover.rest = synchronize rest ∧
      r.recover.reports = [fault] := by
  obtain ⟨o, ho⟩ := r
  cases h
  exact ⟨rfl, rfl, rfl⟩

/-- The declaration comes to this one fault, and what follows is dropped up to a boundary. -/
theorem drops_of_refuses {t : Token} {fault : Diagnostic}
    {r : Reply true (t :: tokens) (Stmt Unit)} (ht : t.kind ≠ .symbol .rightBrace)
    (hdeclaration : declaration Reply stop t tokens = r.recover) (h : r.Refuses fault rest) :
    Drops stop (t :: tokens) [fault] (synchronize rest) := by
  obtain ⟨hstatement, hrest, hreports⟩ := h.recover
  rw [← hdeclaration] at hstatement hrest hreports
  rw [← hrest, ← hreports]
  exact drops_of_statement_eq_none ht hstatement

theorem drops_else {t : Token} (ht : t.kind = .keyword .else_) (tokens : List Token) :
    Drops stop (t :: tokens) [.syntactic t .missingExpression] (synchronize (t :: tokens)) := by
  refine drops_of_refuses (r := statement Reply stop (t :: tokens)) (by rw [ht]; decide) ?_ ?_
  · rw [declaration, if_neg (by rw [ht]; decide), if_neg (by rw [ht]; decide),
      if_neg (by rw [ht]; decide)]
    rfl
  · have hexpression : (expression Reply stop (t :: tokens)).Refuses
        (.syntactic t .missingExpression) (t :: tokens) := by
      refine expression_refuses fun u hu => ?_
      cases hu
      rw [ht]
      decide
    rw [statement, ht]
    exact hexpression.andThen

theorem Settles.drops (h : Settles tokens faults rest) : Drops stop tokens faults rest := by
  induction h with
  | done _ => exact .refl
  | other ht _ ih => exact (drops_else ht _).trans ih

end Lox.Parsing
