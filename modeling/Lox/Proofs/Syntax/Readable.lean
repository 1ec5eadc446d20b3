import Lox.Proofs.Syntax.Grammar
import Lox.Proofs.Syntax.StatementReading

/-!
What is derivable stands for a tree.

A derivation may take any way through the grammar. That an `else` belongs to the nearest `if` is
settled here: a statement that an `else` can follow takes up the `else`.
-/

namespace Lox.Parsing

open Grammar

variable {p : Pattern} {ts us : List Token} {t : Token}

/-- Some tree is what the tokens stand for under the rule. -/
def Readable : Rule → List Token → Prop
  | .program, ts => ∃ ss, ReadsAsStmt ts (.declarations ss)
  | .declaration, ts | .classDecl, ts | .funDecl, ts => ∃ s, ReadsAsStmt ts (.declaration s)
  | .function, ts => ∃ d, ReadsAsStmt ts (.function d)
  | .varDecl, ts =>
      ∃ word us s, ts = word :: us ∧ word.kind = .keyword .var_ ∧ ReadsAsVariable us s
  | .exprStmt, ts =>
      ∃ us semicolon e, ts = us ++ [semicolon] ∧ ReadsAs us (.expression e) ∧
        semicolon.kind = .symbol .semicolon
  | .statement, ts | .forStmt, ts | .ifStmt, ts | .printStmt, ts | .returnStmt, ts
  | .whileStmt, ts => ∃ closed s, ReadsAsStmt ts (.statement closed s)
  | .block, ts =>
      ∃ l us r ss, ts = l :: (us ++ [r]) ∧ l.kind = .symbol .leftBrace ∧
        ReadsAsStmt us (.declarations ss) ∧ r.kind = .symbol .rightBrace
  | .parameters, ts => ∃ names, ReadsAsNames ts names ∧ names.length ≤ entryLimit
  | .expression, ts | .assignment, ts => ∃ e, ReadsAs ts (.expression e)
  | .logicOr, ts => ∃ e, ReadsAs ts (.binary levels e)
  | .logicAnd, ts => ∃ e, ReadsAs ts (.binary (levels.drop 1) e)
  | .equality, ts => ∃ e, ReadsAs ts (.binary (levels.drop 2) e)
  | .comparison, ts => ∃ e, ReadsAs ts (.binary (levels.drop 3) e)
  | .term, ts => ∃ e, ReadsAs ts (.binary (levels.drop 4) e)
  | .factor, ts => ∃ e, ReadsAs ts (.binary (levels.drop 5) e)
  | .unary, ts => ∃ e, ReadsAs ts (.unary e)
  | .call, ts => ∃ e, ReadsAs ts (.call e)
  | .arguments, ts => ∃ es, ReadsAs ts (.entries es) ∧ es.length ≤ entryLimit
  | .primary, ts => ∃ e, ReadsAs ts (.primary e)

/-- The tokens are made up as the pattern says, of stretches that stand for trees. -/
def Meets : Pattern → List Token → Prop
  | .empty, ts => ts = []
  | .terminal x, ts => ∃ t, ts = [t] ∧ x.Matches t.kind
  | .rule r, ts => Readable r ts
  | .sequence p q, ts => ∃ us vs, ts = us ++ vs ∧ Meets p us ∧ Meets q vs
  | .choice p q, ts => Meets p ts ∨ Meets q ts
  | .optional p, ts => ts = [] ∨ Meets p ts
  | .many most p, ts =>
      ∃ words : List (List Token), ts = words.flatten ∧
        (∀ n, most = some n → words.length ≤ n) ∧ ∀ word ∈ words, Meets p word

theorem many_extends {P : List Token → Prop} {words : List (List Token)}
    (hstep : ∀ us word, P us → Meets p word → P (us ++ word))
    (hwords : ∀ word ∈ words, Meets p word) (h : P ts) : P (ts ++ words.flatten) := by
  induction words generalizing ts with
  | nil => simpa using h
  | cons word words ih =>
      rw [List.flatten_cons, ← List.append_assoc]
      exact ih (fun w hw => hwords w (List.mem_cons_of_mem _ hw))
        (hstep ts word h (hwords word List.mem_cons_self))

theorem many_builds {P : List Token → Prop} {words : List (List Token)} (hnil : P [])
    (hstep : ∀ us word, Meets p word → P us → P (word ++ us))
    (hwords : ∀ word ∈ words, Meets p word) : P words.flatten := by
  induction words with
  | nil => exact hnil
  | cons word words ih =>
      exact hstep _ word (hwords word List.mem_cons_self)
        (ih fun w hw => hwords w (List.mem_cons_of_mem _ hw))

theorem ReadsAs.of_unary {e : Expr Unit} (h : ReadsAs ts (.unary e)) (lv : List (Level Unit)) :
    ReadsAs ts (.binary lv e) := by
  induction lv with
  | nil => exact .tightest h
  | cons level tighter ih => exact .tighter ih

theorem ReadsAs.of_call {e : Expr Unit} (h : ReadsAs ts (.call e)) (lv : List (Level Unit)) :
    ReadsAs ts (.binary lv e) :=
  .of_unary (.operand h) lv

/-- Operands with operators of one level between them are read by that level. -/
theorem readsAs_operands {level : Level Unit} {tighter : List (Level Unit)} {operators : Pattern}
    {operand : Rule} (h : Meets (.operands operand operators) ts)
    (hoperand : ∀ us, Readable operand us → ∃ e, ReadsAs us (.binary tighter e))
    (hoperators : ∀ us, Meets operators us → ∃ t, us = [t] ∧ t.kind ∈ level.operators) :
    ∃ e, ReadsAs ts (.binary (level :: tighter) e) := by
  obtain ⟨first, _, rfl, hfirst, words, rfl, -, hwords⟩ := h
  refine many_extends (P := fun us => ∃ e, ReadsAs us (.binary (level :: tighter) e))
    ?_ hwords ?_
  · rintro us _ ⟨a, ha⟩ ⟨_, second, rfl, hoperator, hsecond⟩
    obtain ⟨operator, rfl, hkind⟩ := hoperators _ hoperator
    obtain ⟨b, hb⟩ := hoperand _ hsecond
    exact ⟨_, .join ha hkind hb⟩
  · obtain ⟨e, he⟩ := hoperand _ hfirst
    exact ⟨e, .tighter he⟩

theorem readsAs_call (h : Meets (grammar (some entryLimit) .call) ts) :
    ∃ e, ReadsAs ts (.call e) := by
  obtain ⟨first, _, rfl, ⟨callee, hcallee⟩, words, rfl, -, hwords⟩ := h
  refine many_extends (P := fun us => ∃ e, ReadsAs us (.call e)) ?_ hwords
    ⟨callee, .primary hcallee⟩
  rintro us _ ⟨e, he⟩ (hcall | hget)
  · obtain ⟨_, _, rfl, ⟨l, rfl, hl⟩, args, _, rfl, hargs, r, rfl, hr⟩ := hcall
    have hargs : ∃ es, ReadsAs args (.arguments es) := by
      rcases hargs with rfl | ⟨es, hentries, hcount⟩
      · exact ⟨[], .noArguments⟩
      · exact ⟨es, .arguments hentries hcount⟩
    obtain ⟨es, hes⟩ := hargs
    exact ⟨_, .call he (matches_symbol_iff.mp hl) hes (matches_symbol_iff.mp hr)⟩
  · obtain ⟨_, _, rfl, ⟨dot, rfl, hdot⟩, name, rfl, hname⟩ := hget
    exact ⟨_, .get he (matches_symbol_iff.mp hdot) (matches_identifier_iff.mp hname)⟩

theorem readsAs_entries {words : List (List Token)}
    (h : ∃ e, ReadsAs ts (.expression e))
    (hwords : ∀ word ∈ words, Meets (.sequence (.symbol .comma) (.rule .expression)) word) :
    ∃ es, ReadsAs (ts ++ words.flatten) (.entries es) ∧ es.length = words.length + 1 := by
  induction words generalizing ts with
  | nil =>
      obtain ⟨e, he⟩ := h
      exact ⟨[e], by simpa using .lastEntry he, rfl⟩
  | cons word words ih =>
      obtain ⟨e, he⟩ := h
      obtain ⟨_, us, rfl, ⟨comma, rfl, hcomma⟩, hus⟩ := hwords word List.mem_cons_self
      obtain ⟨es, hes, hcount⟩ := ih hus fun w hw => hwords w (List.mem_cons_of_mem _ hw)
      exact ⟨e :: es, by simpa using .entry he (matches_symbol_iff.mp hcomma) hes, by simp [hcount]⟩

theorem readsAsNames_of_words {name : Token} {words : List (List Token)}
    (hname : name.kind = .identifier)
    (hwords : ∀ word ∈ words, Meets (.sequence (.symbol .comma) .identifier) word) :
    ∃ names, ReadsAsNames (name :: words.flatten) names ∧ names.length = words.length + 1 := by
  induction words generalizing name with
  | nil => exact ⟨[name], .last hname, rfl⟩
  | cons word words ih =>
      obtain ⟨_, us, rfl, ⟨comma, rfl, hcomma⟩, next, rfl, hnext⟩ := hwords word List.mem_cons_self
      obtain ⟨names, hnames, hcount⟩ := ih (matches_identifier_iff.mp hnext)
        fun w hw => hwords w (List.mem_cons_of_mem _ hw)
      exact ⟨name :: names, .more hname (matches_symbol_iff.mp hcomma) hnames, by simp [hcount]⟩

/-- A statement that is not closed takes up an `else` and the statement after it. -/
theorem ReadsAsStmt.absorb {other : Token} {closed : Bool} {s alternative : Stmt Unit}
    (h : ReadsAsStmt ts (.statement false s)) (hother : other.kind = .keyword .else_)
    (halternative : ReadsAsStmt us (.statement closed alternative)) :
    ∃ closed' s', ReadsAsStmt (ts ++ other :: us) (.statement closed' s') := by
  -- The `else` goes to the innermost `if` at the end that has none.
  generalize hph : StmtPhrase.statement false s = ph at h
  induction h generalizing s with
  | @branch word l r ts us condition closed' consequent hword hl hcondition hr hconsequent ih =>
      cases closed' with
      | true =>
          have h := ReadsAsStmt.branches hword hl hcondition hr hconsequent hother halternative
          exact ⟨_, _, by simpa using h⟩
      | false =>
          obtain ⟨_, _, h⟩ := ih rfl
          have h := ReadsAsStmt.branch hword hl hcondition hr h
          exact ⟨_, _, by simpa using h⟩
  | branches hword hl hcondition hr hconsequent hother' _ _ ih =>
      cases hph
      obtain ⟨_, _, h⟩ := ih rfl
      have h := ReadsAsStmt.branches hword hl hcondition hr hconsequent hother' h
      exact ⟨_, _, by simpa using h⟩
  | loop hword hl hcondition hr _ ih =>
      cases hph
      obtain ⟨_, _, h⟩ := ih rfl
      have h := ReadsAsStmt.loop hword hl hcondition hr h
      exact ⟨_, _, by simpa using h⟩
  | forLoop hword hl hinitial hcondition hsemicolon hincrement hr _ ih =>
      cases hph
      obtain ⟨_, _, h⟩ := ih rfl
      have h := ReadsAsStmt.forLoop hword hl hinitial hcondition hsemicolon hincrement hr h
      exact ⟨_, _, by simpa using h⟩
  | _ => cases hph

theorem readsAsOption_of_meets (h : Meets (.optional (.rule .expression)) ts) :
    ∃ e, ReadsAsOption ts e := by
  rcases h with rfl | ⟨e, he⟩
  · exact ⟨none, rfl⟩
  · exact ⟨some e, he⟩

theorem readsAs_assignment (h : Meets (grammar (some entryLimit) .assignment) ts) :
    ∃ e, ReadsAs ts (.expression e) := by
  rcases h with ⟨target, _, rfl, htarget, _, _, rfl, ⟨name, rfl, hname⟩, _, us, rfl,
    ⟨equals, rfl, hequals⟩, value, hvalue⟩ | ⟨e, he⟩
  · have hname := matches_identifier_iff.mp hname
    have hequals := matches_symbol_iff.mp hequals
    rcases htarget with rfl | ⟨us, _, rfl, ⟨object, hobject⟩, dot, rfl, hdot⟩
    · have htarget := ReadsAs.of_call (.primary (.name hname)) levels
      have h := ReadsAs.assign htarget hequals hvalue rfl
      exact ⟨_, h⟩
    · have htarget := (ReadsAs.get hobject (matches_symbol_iff.mp hdot) hname).of_call levels
      have h := ReadsAs.assign htarget hequals hvalue rfl
      exact ⟨_, by simpa using h⟩
  · exact ⟨e, .plain he⟩

theorem readable_unary (h : Meets (grammar (some entryLimit) .unary) ts) :
    Readable .unary ts := by
  rcases h with ⟨operators, us, rfl, hoperator, e, he⟩ | ⟨e, he⟩
  · have hoperator : ∃ t, operators = [t] ∧ t.kind ∈ unaryOperators := by
      rcases hoperator with ⟨t, rfl, ht⟩ | ⟨t, rfl, ht⟩
      · exact ⟨t, rfl, by simp [unaryOperators, matches_symbol_iff.mp ht]⟩
      · exact ⟨t, rfl, by simp [unaryOperators, matches_symbol_iff.mp ht]⟩
    obtain ⟨t, rfl, ht⟩ := hoperator
    exact ⟨_, .unary ht he⟩
  · exact ⟨e, .operand he⟩

theorem readable_primary (h : Meets (grammar (some entryLimit) .primary) ts) :
    Readable .primary ts := by
  have hliteral : ∀ t : Token, (literal? t.kind).isSome → Readable .primary [t] := by
    intro t ht
    obtain ⟨value, hvalue⟩ := Option.isSome_iff_exists.mp ht
    exact ⟨_, .literal hvalue⟩
  rcases h with ⟨t, rfl, ht⟩ | ⟨t, rfl, ht⟩ | ⟨t, rfl, ht⟩ | ⟨t, rfl, ht⟩ | ⟨t, rfl, ht⟩ |
    ⟨t, rfl, ht⟩ | ⟨t, rfl, ht⟩ | ⟨_, _, rfl, ⟨l, rfl, hl⟩, us, _, rfl, ⟨e, he⟩, r, rfl, hr⟩
  · generalize hk : t.kind = k at ht
    cases ht
    exact hliteral t (by simp [hk, literal?])
  · generalize hk : t.kind = k at ht
    cases ht
    exact hliteral t (by simp [hk, literal?])
  · exact hliteral t (by simp [matches_word_iff.mp ht, literal?])
  · exact hliteral t (by simp [matches_word_iff.mp ht, literal?])
  · exact hliteral t (by simp [matches_word_iff.mp ht, literal?])
  · exact ⟨_, .this (matches_word_iff.mp ht)⟩
  · exact ⟨_, .name (matches_identifier_iff.mp ht)⟩
  · exact ⟨_, .grouping (matches_symbol_iff.mp hl) he (matches_symbol_iff.mp hr)⟩

theorem readable_forStmt (h : Meets (grammar (some entryLimit) .forStmt) ts) :
    Readable .forStmt ts := by
  obtain ⟨_, _, rfl, ⟨word, rfl, hword⟩, _, _, rfl, ⟨l, rfl, hl⟩, initial, _, rfl, hinitial,
    condition, _, rfl, hcondition, _, _, rfl, ⟨semicolon, rfl, hsemicolon⟩, increment, _, rfl,
    hincrement, _, us, rfl, ⟨r, rfl, hr⟩, closed, s, hs⟩ := h
  have hinitial : ∃ s, ReadsAsInitial initial s := by
    rcases hinitial with ⟨word, us, s, rfl, hword, hs⟩ | ⟨us, semicolon, e, rfl, he, hsemicolon⟩ |
      ⟨semicolon, rfl, hsemicolon⟩
    · exact ⟨_, .var_ hword hs⟩
    · exact ⟨_, .expression he hsemicolon⟩
    · exact ⟨_, .none (matches_symbol_iff.mp hsemicolon)⟩
  obtain ⟨first, hfirst⟩ := hinitial
  obtain ⟨while_, hwhile⟩ := readsAsOption_of_meets hcondition
  obtain ⟨after, hafter⟩ := readsAsOption_of_meets hincrement
  exact ⟨closed, _, .forLoop (matches_word_iff.mp hword) (matches_symbol_iff.mp hl) hfirst hwhile
    (matches_symbol_iff.mp hsemicolon) hafter (matches_symbol_iff.mp hr) hs⟩

theorem readable_ifStmt (h : Meets (grammar (some entryLimit) .ifStmt) ts) :
    Readable .ifStmt ts := by
  obtain ⟨_, _, rfl, ⟨word, rfl, hword⟩, _, _, rfl, ⟨l, rfl, hl⟩, condition, _, rfl,
    ⟨e, he⟩, _, _, rfl, ⟨r, rfl, hr⟩, us, _, rfl, ⟨closed, s, hs⟩, halternative⟩ := h
  have hword := matches_word_iff.mp hword
  have hl := matches_symbol_iff.mp hl
  have hr := matches_symbol_iff.mp hr
  rcases halternative with rfl | ⟨_, vs, rfl, ⟨other, rfl, hother⟩, closed', s', hs'⟩
  · have h := ReadsAsStmt.branch hword hl he hr hs
    exact ⟨_, _, by simpa using h⟩
  · have hother := matches_word_iff.mp hother
    cases closed with
    | true => exact ⟨_, _, .branches hword hl he hr hs hother hs'⟩
    | false =>
        obtain ⟨_, _, h⟩ := hs.absorb hother hs'
        exact ⟨_, _, .branch hword hl he hr h⟩

theorem readable_declarations {words : List (List Token)}
    (hwords : ∀ word ∈ words, Meets (.rule .declaration) word) :
    ∃ ss, ReadsAsStmt words.flatten (.declarations ss) := by
  refine many_builds (P := fun us => ∃ ss, ReadsAsStmt us (.declarations ss))
    ⟨[], .noDeclarations⟩ ?_ hwords
  rintro us word ⟨s, hs⟩ ⟨ss, hss⟩
  exact ⟨s :: ss, .declarations hs hss⟩

theorem readable_function (h : Meets (grammar (some entryLimit) .function) ts) :
    Readable .function ts := by
  obtain ⟨_, _, rfl, ⟨name, rfl, hname⟩, _, _, rfl, ⟨l, rfl, hl⟩, params, _, rfl, hparams, _, _,
    rfl, ⟨r, rfl, hr⟩, open_, us, close, ss, rfl, hopen, hss, hclose⟩ := h
  have hparams : ∃ names, ReadsAsParameters params names := by
    rcases hparams with rfl | ⟨names, hnames, hcount⟩
    · exact ⟨[], .none⟩
    · exact ⟨names, .some hnames hcount⟩
  obtain ⟨names, hnames⟩ := hparams
  exact ⟨_, .body (matches_identifier_iff.mp hname) (matches_symbol_iff.mp hl) hnames
    (matches_symbol_iff.mp hr) hopen hss hclose⟩

theorem readable_classDecl (h : Meets (grammar (some entryLimit) .classDecl) ts) :
    Readable .classDecl ts := by
  obtain ⟨_, _, rfl, ⟨word, rfl, hword⟩, _, _, rfl, ⟨name, rfl, hname⟩, _, _, rfl,
    ⟨l, rfl, hl⟩, _, _, rfl, ⟨words, rfl, -, hwords⟩, r, rfl, hr⟩ := h
  have hmethods : ∃ ds, ReadsAsStmt words.flatten (.methods ds) := by
    refine many_builds (P := fun us => ∃ ds, ReadsAsStmt us (.methods ds)) ⟨[], .noMethods⟩
      ?_ hwords
    rintro us word ⟨d, hd⟩ ⟨ds, hds⟩
    exact ⟨d :: ds, .methods hd hds⟩
  obtain ⟨ds, hds⟩ := hmethods
  exact ⟨_, .class_ (matches_word_iff.mp hword) (matches_identifier_iff.mp hname)
    (matches_symbol_iff.mp hl) hds (matches_symbol_iff.mp hr)⟩

/-- Each rule of the grammar reads what is made up of readable stretches as the rule says. -/
theorem readable_of_meets {r : Rule} (h : Meets (grammar (some entryLimit) r) ts) :
    Readable r ts := by
  cases r with
  | program =>
      obtain ⟨words, rfl, -, hwords⟩ := h
      exact readable_declarations hwords
  | declaration =>
      rcases h with h | h | ⟨word, us, s, rfl, hword, hs⟩ | ⟨closed, s, hs⟩
      · exact h
      · exact h
      · exact ⟨s, .var_ hword hs⟩
      · exact ⟨s, .statement hs⟩
  | classDecl => exact readable_classDecl h
  | funDecl =>
      obtain ⟨_, us, rfl, ⟨word, rfl, hword⟩, d, hd⟩ := h
      exact ⟨_, .function (matches_word_iff.mp hword) hd⟩
  | function => exact readable_function h
  | varDecl =>
      obtain ⟨_, _, rfl, ⟨word, rfl, hword⟩, _, _, rfl, ⟨name, rfl, hname⟩, initial, _, rfl,
        hinitial, semicolon, rfl, hsemicolon⟩ := h
      have hword := matches_word_iff.mp hword
      have hname := matches_identifier_iff.mp hname
      have hsemicolon := matches_symbol_iff.mp hsemicolon
      rcases hinitial with rfl | ⟨_, us, rfl, ⟨equals, rfl, hequals⟩, e, he⟩
      · exact ⟨word, _, _, rfl, hword, .bare hname hsemicolon⟩
      · have h := ReadsAsVariable.initial hname (matches_symbol_iff.mp hequals) he hsemicolon
        exact ⟨word, _, _, rfl, hword, h⟩
  | statement =>
      rcases h with ⟨us, semicolon, e, rfl, he, hsemicolon⟩ | h | h | h | h | h |
        ⟨l, us, r, ss, rfl, hl, hss, hr⟩
      · exact ⟨_, _, .expression he hsemicolon⟩
      · exact h
      · exact h
      · exact h
      · exact h
      · exact h
      · exact ⟨_, _, .block hl hss hr⟩
  | exprStmt =>
      obtain ⟨us, _, rfl, ⟨e, he⟩, semicolon, rfl, hsemicolon⟩ := h
      exact ⟨us, semicolon, e, rfl, he, matches_symbol_iff.mp hsemicolon⟩
  | forStmt => exact readable_forStmt h
  | ifStmt => exact readable_ifStmt h
  | printStmt =>
      obtain ⟨_, _, rfl, ⟨word, rfl, hword⟩, us, _, rfl, ⟨e, he⟩, semicolon, rfl, hsemicolon⟩ := h
      exact ⟨_, _, .print (matches_word_iff.mp hword) he (matches_symbol_iff.mp hsemicolon)⟩
  | returnStmt =>
      obtain ⟨_, _, rfl, ⟨word, rfl, hword⟩, us, _, rfl, hvalue, semicolon, rfl, hsemicolon⟩ := h
      obtain ⟨value, hvalue⟩ := readsAsOption_of_meets hvalue
      exact ⟨_, _, .ret (matches_word_iff.mp hword) hvalue (matches_symbol_iff.mp hsemicolon)⟩
  | whileStmt =>
      obtain ⟨_, _, rfl, ⟨word, rfl, hword⟩, _, _, rfl, ⟨l, rfl, hl⟩, condition, _, rfl,
        ⟨e, he⟩, _, us, rfl, ⟨r, rfl, hr⟩, closed, s, hs⟩ := h
      exact ⟨_, _, .loop (matches_word_iff.mp hword) (matches_symbol_iff.mp hl) he
        (matches_symbol_iff.mp hr) hs⟩
  | block =>
      obtain ⟨_, _, rfl, ⟨l, rfl, hl⟩, _, _, rfl, ⟨words, rfl, -, hwords⟩, r, rfl, hr⟩ := h
      obtain ⟨ss, hss⟩ := readable_declarations hwords
      exact ⟨l, _, r, ss, rfl, matches_symbol_iff.mp hl, hss, matches_symbol_iff.mp hr⟩
  | parameters =>
      obtain ⟨_, _, rfl, ⟨name, rfl, hname⟩, words, rfl, hcount, hwords⟩ := h
      obtain ⟨names, hnames, hlength⟩ :=
        readsAsNames_of_words (matches_identifier_iff.mp hname) hwords
      have hcount : words.length ≤ entryLimit - 1 := hcount _ rfl
      exact ⟨names, hnames, by simp only [entryLimit] at *; omega⟩
  | expression => exact h
  | assignment => exact readsAs_assignment h
  | logicOr | logicAnd =>
      refine readsAs_operands h (fun _ h => h) ?_
      rintro _ ⟨t, rfl, ht⟩
      exact ⟨t, rfl, by simp [matches_word_iff.mp ht]⟩
  | equality | term =>
      refine readsAs_operands h (fun _ h => h) ?_
      rintro _ (⟨t, rfl, ht⟩ | ⟨t, rfl, ht⟩) <;>
        exact ⟨t, rfl, by simp [matches_symbol_iff.mp ht]⟩
  | comparison =>
      refine readsAs_operands h (fun _ h => h) ?_
      rintro _ (⟨t, rfl, ht⟩ | ⟨t, rfl, ht⟩ | ⟨t, rfl, ht⟩ | ⟨t, rfl, ht⟩) <;>
        exact ⟨t, rfl, by simp [matches_symbol_iff.mp ht]⟩
  | factor =>
      refine readsAs_operands h (fun _ ⟨e, he⟩ => ⟨e, .tightest he⟩) ?_
      rintro _ (⟨t, rfl, ht⟩ | ⟨t, rfl, ht⟩) <;>
        exact ⟨t, rfl, by simp [matches_symbol_iff.mp ht]⟩
  | unary => exact readable_unary h
  | call => exact readsAs_call h
  | arguments =>
      obtain ⟨us, _, rfl, hus, words, rfl, hcount, hwords⟩ := h
      obtain ⟨es, hes, hlength⟩ := readsAs_entries hus hwords
      have hcount : words.length ≤ entryLimit - 1 := hcount _ rfl
      exact ⟨es, hes, by simp only [entryLimit] at *; omega⟩
  | primary => exact readable_primary h

theorem exists_words {f : Token → Kind} {words : List (List Kind)}
    (h : ts.map f = words.flatten) :
    ∃ pieces : List (List Token), ts = pieces.flatten ∧ pieces.map (List.map f) = words := by
  induction words generalizing ts with
  | nil => exact ⟨[], by simpa using h, rfl⟩
  | cons word words ih =>
      obtain ⟨us, vs, rfl, hus, hvs⟩ := List.map_eq_append_iff.mp h
      obtain ⟨pieces, rfl, hpieces⟩ := ih hvs
      exact ⟨us :: pieces, rfl, by rw [List.map_cons, hus, hpieces]⟩

theorem meets_of_derives {ks : List Kind} (h : Derives (some entryLimit) p ks)
    (hts : ts.map Token.kind = ks) : Meets p ts := by
  induction h generalizing ts with
  | empty => exact List.map_eq_nil_iff.mp hts
  | terminal h =>
      obtain ⟨t, rfl, rfl⟩ := List.map_eq_singleton_iff.mp hts
      exact ⟨t, rfl, h⟩
  | rule _ ih => exact readable_of_meets (ih hts)
  | sequence _ _ ihp ihq =>
      obtain ⟨us, vs, rfl, hus, hvs⟩ := List.map_eq_append_iff.mp hts
      exact ⟨us, vs, rfl, ihp hus, ihq hvs⟩
  | first _ ih => exact .inl (ih hts)
  | second _ ih => exact .inr (ih hts)
  | absent => exact .inl (List.map_eq_nil_iff.mp hts)
  | present _ ih => exact .inr (ih hts)
  | many hmost _ ih =>
      obtain ⟨pieces, rfl, rfl⟩ := exists_words hts
      refine ⟨pieces, rfl, by simpa using hmost, ?_⟩
      intro piece hpiece
      exact ih _ (List.mem_map_of_mem hpiece) rfl

end Lox.Parsing
