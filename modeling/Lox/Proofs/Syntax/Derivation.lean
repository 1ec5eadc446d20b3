import Lox.Proofs.Syntax.ExpressionComplete
import Lox.Proofs.Syntax.Grammar
import Lox.Proofs.Syntax.StatementReading

namespace Lox.Parsing

open Grammar

variable {limit most : Option Nat} {p q : Pattern} {ts us : List Token}
  {t : Token}

/-- The kinds of the tokens are derivable. -/
def DerivesTokens (limit : Option Nat) (p : Pattern) (ts : List Token) : Prop :=
  Derives limit p (ts.map Token.kind)

namespace DerivesTokens

theorem symbol {s : Symbol} (h : t.kind = .symbol s) : DerivesTokens limit (.symbol s) [t] :=
  .terminal (h ▸ .symbol s)

theorem word {k : Keyword} (h : t.kind = .keyword k) : DerivesTokens limit (.word k) [t] :=
  .terminal (h ▸ .word k)

theorem identifier (h : t.kind = .identifier) : DerivesTokens limit .identifier [t] :=
  .terminal (h ▸ .identifier)

theorem rule {r : Rule} (h : DerivesTokens limit (grammar limit r) ts) :
    DerivesTokens limit (.rule r) ts :=
  Derives.rule h

theorem append (hp : DerivesTokens limit p ts) (hq : DerivesTokens limit q us) :
    DerivesTokens limit (.sequence p q) (ts ++ us) := by
  rw [DerivesTokens, List.map_append]
  exact .sequence hp hq

theorem cons (hp : DerivesTokens limit p [t]) (hq : DerivesTokens limit q us) :
    DerivesTokens limit (.sequence p q) (t :: us) :=
  hp.append hq

theorem first (h : DerivesTokens limit p ts) : DerivesTokens limit (.choice p q) ts :=
  Derives.first h

theorem second (h : DerivesTokens limit q ts) : DerivesTokens limit (.choice p q) ts :=
  Derives.second h

theorem absent : DerivesTokens limit (.optional p) [] := Derives.absent

theorem present (h : DerivesTokens limit p ts) : DerivesTokens limit (.optional p) ts :=
  Derives.present h

theorem many_nil : DerivesTokens limit (.many most p) [] := Derives.many_nil

theorem many_cons (hp : DerivesTokens limit p ts) (h : DerivesTokens limit (.many none p) us) :
    DerivesTokens limit (.many none p) (ts ++ us) := by
  rw [DerivesTokens, List.map_append]
  exact Derives.many_cons hp h

theorem sequence_nil (h : DerivesTokens limit p ts) :
    DerivesTokens limit (.sequence p (.many most q)) ts :=
  Derives.sequence_nil h

theorem sequence_concat (h : DerivesTokens limit (.sequence q (.many none p)) ts)
    (hp : DerivesTokens limit p us) :
    DerivesTokens limit (.sequence q (.many none p)) (ts ++ us) := by
  rw [DerivesTokens, List.map_append]
  exact Derives.sequence_concat h hp

end DerivesTokens

/-- The rule that reads what the levels join. -/
def levelRule (levels : List (Level Unit)) : Rule :=
  match levels.length with
  | 0 => .unary
  | 1 => .factor
  | 2 => .term
  | 3 => .comparison
  | 4 => .equality
  | 5 => .logicAnd
  | _ => .logicOr

/-- Each level is a rule of operands of the next level, with its operators between them. -/
theorem grammar_levelRule (limit : Option Nat) {level : Level Unit} {tighter : List (Level Unit)}
    (h : level :: tighter <:+ levels) :
    ∃ operators, grammar limit (levelRule (level :: tighter)) =
        .operands (levelRule tighter) operators ∧
      ∀ k, k ∈ level.operators → Derives limit operators [k] := by
  simp only [levels, List.suffix_cons_iff, List.cons.injEq, List.suffix_nil, reduceCtorEq,
    or_false] at h
  rcases h with ⟨rfl, rfl⟩ | ⟨rfl, rfl⟩ | ⟨rfl, rfl⟩ | ⟨rfl, rfl⟩ | ⟨rfl, rfl⟩ | ⟨rfl, rfl⟩ <;>
    refine ⟨_, rfl, fun k hk => ?_⟩ <;>
    simp only [List.mem_cons, List.not_mem_nil, or_false] at hk <;>
    simp only [Pattern.oneOf, Pattern.symbol, Pattern.word, derives_choice_iff,
      derives_terminal_iff, matches_symbol_iff, matches_word_iff]
  all_goals
    first
    | exact hk
    | exact hk.symm

theorem assigned?_join {level : Level Unit} {operator : Token} {a b value : Expr Unit}
    (h : level ∈ levels) : assigned? (level.join a operator b) value = none := by
  simp only [levels, List.mem_cons, List.not_mem_nil, or_false] at h
  rcases h with rfl | rfl | rfl | rfl | rfl | rfl <;> rfl

/-- The part of the grammar that a phrase belongs to. -/
def ExprPhrase.pattern : ExprPhrase → Pattern
  | .expression _ => .rule .expression
  | .binary levels _ => .rule (levelRule levels)
  | .unary _ => .rule .unary
  | .call _ => .rule .call
  | .primary _ => .rule .primary
  | .arguments _ => .optional (.rule .arguments)
  | .entries es => .entries (some es.length) (.rule .expression)

/-- The levels that are left where a phrase is read. -/
def ExprPhrase.levels : ExprPhrase → List (Level Unit)
  | .binary levels _ => levels
  | _ => []

/-- What may turn out to be the target of an assignment. -/
def ExprPhrase.target? : ExprPhrase → Option (Expr Unit)
  | .binary _ e | .unary e | .call e | .primary e => some e
  | _ => none

/-- A name, with a call and a dot before it if it is a property. -/
def DerivesTarget (limit : Option Nat) (ts : List Token) : Prop :=
  ∃ us name, ts = us ++ [name] ∧ name.kind = .identifier ∧
    DerivesTokens limit (.optional (.sequence (.rule .call) (.symbol .dot))) us

theorem DerivesTarget.assign {equals : Token} (h : DerivesTarget limit ts)
    (hequals : equals.kind = .symbol .equal) (hvalue : DerivesTokens limit (.rule .assignment) us) :
    DerivesTokens limit (.rule .assignment) (ts ++ equals :: us) := by
  obtain ⟨before, name, rfl, hname, hbefore⟩ := h
  rw [List.append_assoc]
  exact .rule (.first (hbefore.append ((DerivesTokens.identifier hname).cons
    ((DerivesTokens.symbol hequals).cons hvalue))))

theorem derivesTokens_literal {value : Literal} (h : literal? t.kind = some value) :
    DerivesTokens limit (.rule .primary) [t] := by
  unfold literal? at h
  split at h
  case h_1 hkind => exact .rule (.second (.second (.second (.first (.word hkind)))))
  case h_2 hkind => exact .rule (.second (.second (.first (.word hkind))))
  case h_3 hkind => exact .rule (.second (.second (.second (.second (.first (.word hkind))))))
  case h_4 n hkind => exact .rule (.first (.terminal (hkind ▸ .number n)))
  case h_5 s hkind => exact .rule (.second (.first (.terminal (hkind ▸ .string s))))
  case h_6 => cases h

/-- Along the relation a phrase is derived, and so is the target that it may turn out to be. -/
theorem ReadsAs.derives {ph : ExprPhrase} (h : ReadsAs ts ph) (hlevels : ph.levels <:+ levels) :
    DerivesTokens (some entryLimit) ph.pattern ts ∧
      ∀ target ∈ ph.target?, ∀ value e, assigned? target value = some e →
        DerivesTarget (some entryLimit) ts := by
  induction h with
  | literal h =>
      refine ⟨derivesTokens_literal h, ?_⟩
      rintro _ ⟨⟩ value e ⟨⟩
  | name h =>
      refine ⟨.rule (.second (.second (.second (.second (.second (.second (.first
        (.identifier h)))))))), ?_⟩
      rintro _ ⟨⟩ value e _
      exact ⟨[], _, rfl, h, .absent⟩
  | this h =>
      refine ⟨.rule (.second (.second (.second (.second (.second (.first (.word h))))))), ?_⟩
      rintro _ ⟨⟩ value e ⟨⟩
  | grouping hl _ hr ih =>
      have hinner := (ih List.nil_suffix).1
      refine ⟨.rule (.second (.second (.second (.second (.second (.second (.second
        ((DerivesTokens.symbol hl).cons (hinner.append (.symbol hr)))))))))), ?_⟩
      rintro _ ⟨⟩ value e ⟨⟩
  | primary _ ih =>
      obtain ⟨hprimary, htarget⟩ := ih List.nil_suffix
      exact ⟨.rule hprimary.sequence_nil, htarget⟩
  | call _ hl _ hr ihcallee ihargs =>
      have hcallee := derives_rule_iff.mp (ihcallee List.nil_suffix).1
      have hargs := (ihargs List.nil_suffix).1
      have hcall := (DerivesTokens.symbol hl).cons (hargs.append (.symbol hr))
      refine ⟨.rule (DerivesTokens.sequence_concat hcallee (.first hcall)), ?_⟩
      rintro _ ⟨⟩ value e ⟨⟩
  | @get dot name us object _ hdot hname ih =>
      have hobject := (ih List.nil_suffix).1
      have hget : DerivesTokens (some entryLimit) (.sequence (.symbol .dot) .identifier)
          [dot, name] :=
        (DerivesTokens.symbol hdot).cons (.identifier hname)
      refine ⟨.rule (DerivesTokens.sequence_concat (derives_rule_iff.mp hobject) (.second hget)),
        ?_⟩
      rintro _ ⟨⟩ value e _
      exact ⟨us ++ [dot], name, by simp, hname, .present (hobject.append (.symbol hdot))⟩
  | noArguments => exact ⟨.absent, by rintro _ ⟨⟩⟩
  | arguments _ hcount ih =>
      have hentries := (ih List.nil_suffix).1
      exact ⟨.present (.rule (Derives.entries_mono hentries hcount)), by rintro _ ⟨⟩⟩
  | lastEntry _ ih =>
      exact ⟨(ih List.nil_suffix).1.sequence_nil, by rintro _ ⟨⟩⟩
  | entry _ hcomma hmore ihentry ihothers =>
      have hentry := (ihentry List.nil_suffix).1
      have hothers := (ihothers List.nil_suffix).1
      refine ⟨?_, by rintro _ ⟨⟩⟩
      rw [DerivesTokens, List.map_append, List.map_cons, hcomma]
      exact Derives.entries_cons (by cases hmore <;> simp) hentry hothers
  | operand _ ih =>
      obtain ⟨hcall, htarget⟩ := ih List.nil_suffix
      exact ⟨.rule (.second hcall), htarget⟩
  | unary h _ ih =>
      have hoperand := (ih List.nil_suffix).1
      refine ⟨.rule (.first (.cons ?_ hoperand)), ?_⟩
      · simp only [unaryOperators, List.mem_cons, List.not_mem_nil, or_false] at h
        rcases h with h | h
        · exact .first (.symbol h)
        · exact .second (.symbol h)
      · rintro _ ⟨⟩ value e ⟨⟩
  | tightest _ ih => exact ih List.nil_suffix
  | tighter _ ih =>
      obtain ⟨hoperand, htarget⟩ := ih (List.IsSuffix.trans (List.suffix_cons _ _) hlevels)
      obtain ⟨operators, hgrammar, _⟩ := grammar_levelRule (some entryLimit) hlevels
      refine ⟨.rule ?_, htarget⟩
      rw [hgrammar]
      exact hoperand.sequence_nil
  | @join level tighter operator ts us a b _ h _ ihleft ihright =>
      have hleft := derives_rule_iff.mp (ihleft hlevels).1
      have hright := (ihright (List.IsSuffix.trans (List.suffix_cons _ _) hlevels)).1
      obtain ⟨operators, hgrammar, hoperators⟩ :=
        grammar_levelRule (some entryLimit) hlevels
      refine ⟨.rule ?_, ?_⟩
      · rw [hgrammar] at hleft ⊢
        exact DerivesTokens.sequence_concat hleft (.cons (hoperators _ h) hright)
      · rintro _ ⟨⟩ value e he
        rw [assigned?_join (hlevels.subset (by simp [ExprPhrase.levels]))] at he
        cases he
  | plain _ ih => exact ⟨.rule (.rule (.second (ih List.suffix_rfl).1)), by rintro _ ⟨⟩⟩
  | assign _ hequals _ h ihtarget ihvalue =>
      have htarget := (ihtarget List.suffix_rfl).2 _ rfl _ _ h
      have hvalue := derives_rule_iff.mp (ihvalue List.nil_suffix).1
      exact ⟨.rule (htarget.assign hequals hvalue), by rintro _ ⟨⟩⟩

theorem ReadsAs.derives_expression {e : Expr Unit} (h : ReadsAs ts (.expression e)) :
    DerivesTokens (some entryLimit) (.rule .expression) ts :=
  (h.derives List.nil_suffix).1

theorem ReadsAsOption.derives {e : Option (Expr Unit)} (h : ReadsAsOption ts e) :
    DerivesTokens (some entryLimit) (.optional (.rule .expression)) ts := by
  cases e with
  | none =>
      rw [show ts = [] from h]
      exact .absent
  | some e => exact .present h.derives_expression

theorem ReadsAsVariable.derives {word : Token} {s : Stmt Unit}
    (hword : word.kind = .keyword .var_) (h : ReadsAsVariable ts s) :
    DerivesTokens (some entryLimit) (.rule .varDecl) (word :: ts) := by
  refine .rule (.cons (.word hword) ?_)
  cases h with
  | bare hname hsemicolon =>
      exact .cons (.identifier hname) (DerivesTokens.absent.append (.symbol hsemicolon))
  | initial hname hequals he hsemicolon =>
      have hinitial := DerivesTokens.cons (.symbol hequals) he.derives_expression
      exact .cons (.identifier hname) (hinitial.present.append (.symbol hsemicolon))

theorem ReadsAsNames.derives {names : List Token} (h : ReadsAsNames ts names) :
    DerivesTokens limit (.entries (some names.length) .identifier) ts := by
  induction h with
  | last hname => exact (DerivesTokens.identifier hname).sequence_nil
  | more hname hcomma hothers ih =>
      have hname : DerivesTokens limit .identifier _ := .identifier hname
      rw [DerivesTokens, List.map_cons, List.map_cons, hcomma]
      exact Derives.entries_cons (by cases hothers <;> simp) hname ih

theorem derives_parameters {names : List Token} (h : ReadsAsParameters ts names) :
    DerivesTokens (some entryLimit) (.optional (.rule .parameters)) ts := by
  cases h with
  | none => exact .absent
  | some h hcount => exact .present (.rule (Derives.entries_mono h.derives hcount))

theorem ReadsAsInitial.derives {s : Option (Stmt Unit)} (h : ReadsAsInitial ts s) :
    DerivesTokens (some entryLimit)
      (.oneOf (.rule .varDecl) [.rule .exprStmt, .symbol .semicolon]) ts := by
  cases h with
  | none h => exact .second (.second (.symbol h))
  | var_ hword h => exact .first (h.derives hword)
  | expression h hsemicolon =>
      exact .second (.first (.rule (h.derives_expression.append (.symbol hsemicolon))))

/-- The part of the grammar that a phrase belongs to. -/
def StmtPhrase.pattern : StmtPhrase → Pattern
  | .declaration _ => .rule .declaration
  | .statement _ _ => .rule .statement
  | .declarations _ => .many none (.rule .declaration)
  | .function _ => .rule .function
  | .methods _ => .many none (.rule .function)

theorem ReadsAsStmt.derives {ph : StmtPhrase} (h : ReadsAsStmt ts ph) :
    DerivesTokens (some entryLimit) ph.pattern ts := by
  induction h with
  | expression he hsemicolon =>
      exact .rule (.first (.rule (he.derives_expression.append (.symbol hsemicolon))))
  | print hword he hsemicolon =>
      have hprint := he.derives_expression.append (.symbol hsemicolon)
      exact .rule (.second (.second (.second (.first (.rule (.cons (.word hword) hprint))))))
  | ret hword hvalue hsemicolon =>
      have hreturn := hvalue.derives.append (.symbol hsemicolon)
      exact .rule (.second (.second (.second (.second (.first
        (.rule (.cons (.word hword) hreturn)))))))
  | block hl _ hr ih =>
      have hblock := DerivesTokens.append ih (.symbol hr)
      exact .rule (.second (.second (.second (.second (.second (.second
        (.rule (.cons (.symbol hl) hblock))))))))
  | branch hword hl hcondition hr _ ih =>
      have hbranch := ih.append (q := .optional (.sequence (.word .else_) (.rule .statement)))
          .absent
      rw [List.append_nil] at hbranch
      exact .rule (.second (.second (.first (.rule (.cons (.word hword) (.cons (.symbol hl)
        (hcondition.derives_expression.append (.cons (.symbol hr) hbranch))))))))
  | branches hword hl hcondition hr _ hother _ ih ihother =>
      have hbranches := DerivesTokens.append ih
        (DerivesTokens.present (.cons (.word hother) ihother))
      exact .rule (.second (.second (.first (.rule (.cons (.word hword) (.cons (.symbol hl)
        (hcondition.derives_expression.append (.cons (.symbol hr) hbranches))))))))
  | loop hword hl hcondition hr _ ih =>
      have hloop := hcondition.derives_expression.append (.cons (.symbol hr) ih)
      exact .rule (.second (.second (.second (.second (.second (.first
        (.rule (.cons (.word hword) (.cons (.symbol hl) hloop)))))))))
  | forLoop hword hl hinitial hcondition hsemicolon hincrement hr _ ih =>
      have hend := hincrement.derives.append (.cons (.symbol hr) ih)
      have hclauses := hinitial.derives.append
        (hcondition.derives.append (.cons (.symbol hsemicolon) hend))
      exact .rule (.second (.first (.rule (.cons (.word hword) (.cons (.symbol hl) hclauses)))))
  | statement _ ih => exact .rule (.second (.second (.second ih)))
  | var_ hword h => exact .rule (.second (.second (.first (h.derives hword))))
  | function hword _ ih => exact .rule (.second (.first (.rule (.cons (.word hword) ih))))
  | class_ hword hname hl _ hr ih =>
      have hmethods := DerivesTokens.append ih (.symbol hr)
      exact .rule (.first (.rule (.cons (.word hword) (.cons (.identifier hname)
        (.cons (.symbol hl) hmethods)))))
  | noDeclarations => exact .many_nil
  | declarations _ _ ih ihothers => exact .many_cons ih ihothers
  | noMethods => exact .many_nil
  | methods _ _ ih ihothers => exact .many_cons ih ihothers
  | body hname hl hparams hr hopen _ hclose ih =>
      have hblock := DerivesTokens.rule (r := .block)
        (.cons (.symbol hopen) (DerivesTokens.append ih (.symbol hclose)))
      exact .rule (.cons (.identifier hname) (.cons (.symbol hl)
        ((derives_parameters hparams).append (.cons (.symbol hr) hblock))))

end Lox.Parsing
