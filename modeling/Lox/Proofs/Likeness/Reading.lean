import Lox.Proofs.Likeness.Trees
import Lox.Proofs.Syntax.StatementReading

namespace Lox

variable {Label : Type}

/-- Wherever they stand in a tree, these tokens may stand in the place of each other. -/
def Likeness.ofTokens (R : Token → Token → Prop) : Likeness Label where
  token := R
  reference _ _ := R
  binder _ := R
  title _ := R

/-- Every token is related to some, all of them of its kind. -/
structure KeepsKinds (R : Token → Token → Prop) : Prop where
  kind_eq : ∀ {t t' : Token}, R t t' → t'.kind = t.kind
  exists_related : ∀ t, ∃ t', R t t'

theorem KeepsKinds.exists_of_kind {R : Token → Token → Prop} (hR : KeepsKinds R) {t : Token}
    {k : Kind} (h : t.kind = k) : ∃ t', R t t' ∧ t'.kind = k := by
  obtain ⟨t', ht⟩ := hR.exists_related t
  exact ⟨t', ht, (hR.kind_eq ht).trans h⟩

/-- Tokens related to these one by one have the property. -/
def CanBecome (R : Token → Token → Prop) (ts : List Token) (P : List Token → Prop) : Prop :=
  ∃ ts', P ts' ∧ List.Forall₂ R ts ts'

namespace CanBecome

variable {R : Token → Token → Prop} {t t' : Token} {ts us : List Token} {P Q : List Token → Prop}

theorem nil (h : P []) : CanBecome R [] P := ⟨[], h, .nil⟩

theorem imp (h : CanBecome R ts P) (hPQ : ∀ ts', P ts' → Q ts') : CanBecome R ts Q := by
  obtain ⟨ts', hts', hall⟩ := h
  exact ⟨ts', hPQ ts' hts', hall⟩

theorem cons (ht : R t t') (h : CanBecome R ts fun ts' => P (t' :: ts')) :
    CanBecome R (t :: ts) P := by
  obtain ⟨ts', hts', hall⟩ := h
  exact ⟨t' :: ts', hts', .cons ht hall⟩

theorem consKind (hR : KeepsKinds R) {k : Kind} (hk : t.kind = k)
    (h : ∀ t', t'.kind = k → CanBecome R ts fun ts' => P (t' :: ts')) :
    CanBecome R (t :: ts) P := by
  obtain ⟨t', ht, ht'⟩ := hR.exists_of_kind hk
  exact .cons ht (h t' ht')

theorem append (h : CanBecome R ts P)
    (h' : ∀ ts', P ts' → CanBecome R us fun us' => Q (ts' ++ us')) : CanBecome R (ts ++ us) Q := by
  obtain ⟨ts', hts', hall⟩ := h
  obtain ⟨us', hus', hall'⟩ := h' ts' hts'
  exact ⟨ts' ++ us', hus', List.rel_append hall hall'⟩

end CanBecome

theorem Expr.AlikeAll.length_eq {L : Likeness Label} {Δ : List Bool} {es es' : List (Expr Label)}
    (h : Expr.AlikeAll L Δ es es') : es'.length = es.length := by
  induction es generalizing es' with
  | nil =>
      cases h
      rfl
  | cons e es ih =>
      cases h with
      | cons _ hs => exact congrArg (· + 1) (ih hs)

namespace Parsing

inductive ExprPhrase.Alike (R : Token → Token → Prop) : ExprPhrase → ExprPhrase → Prop
  | expression {Δ : List Bool} {e e' : Expr Unit} (h : Expr.Alike (.ofTokens R) Δ e e') :
      ExprPhrase.Alike R (.expression e) (.expression e')
  | binary {Δ : List Bool} {ls : List (Level Unit)} {e e' : Expr Unit} (hlevels : ls ⊆ levels)
      (h : Expr.Alike (.ofTokens R) Δ e e') : ExprPhrase.Alike R (.binary ls e) (.binary ls e')
  | unary {Δ : List Bool} {e e' : Expr Unit} (h : Expr.Alike (.ofTokens R) Δ e e') :
      ExprPhrase.Alike R (.unary e) (.unary e')
  | call {Δ : List Bool} {e e' : Expr Unit} (h : Expr.Alike (.ofTokens R) Δ e e') :
      ExprPhrase.Alike R (.call e) (.call e')
  | primary {Δ : List Bool} {e e' : Expr Unit} (h : Expr.Alike (.ofTokens R) Δ e e') :
      ExprPhrase.Alike R (.primary e) (.primary e')
  | arguments {Δ : List Bool} {es es' : List (Expr Unit)}
      (h : Expr.AlikeAll (.ofTokens R) Δ es es') :
      ExprPhrase.Alike R (.arguments es) (.arguments es')
  | entries {Δ : List Bool} {es es' : List (Expr Unit)} (h : Expr.AlikeAll (.ofTokens R) Δ es es') :
      ExprPhrase.Alike R (.entries es) (.entries es')

variable {R : Token → Token → Prop} {Δ : List Bool} {ts : List Token}

theorem alike_join {level : Level Unit} (hlevel : level ∈ levels) {operator : Token}
    {a b e' : Expr Unit}
    (h : Expr.Alike (.ofTokens R) Δ (level.join a operator b) e') :
    ∃ a' operator' b', e' = level.join a' operator' b' ∧ R operator operator' ∧
      Expr.Alike (.ofTokens R) Δ a a' ∧ Expr.Alike (.ofTokens R) Δ b b' := by
  have hjoin : level.join = .logical ∨ level.join = .binary := by
    simp only [levels, List.mem_cons, List.not_mem_nil, or_false] at hlevel
    rcases hlevel with rfl | rfl | rfl | rfl | rfl | rfl <;> simp
  rcases hjoin with hjoin | hjoin
  · rw [hjoin] at h ⊢
    cases h with
    | logical ha hoperator hb => exact ⟨_, _, _, rfl, hoperator, ha, hb⟩
  · rw [hjoin] at h ⊢
    cases h with
    | binary ha hoperator hb => exact ⟨_, _, _, rfl, hoperator, ha, hb⟩

theorem alike_assigned {target value e e' : Expr Unit} (h : assigned? target value = some e)
    (he : Expr.Alike (.ofTokens R) Δ e e') :
    ∃ target' value', assigned? target' value' = some e' ∧
      Expr.Alike (.ofTokens R) Δ target target' ∧ Expr.Alike (.ofTokens R) Δ value value' := by
  cases target with
  | var label name =>
      cases h
      cases he with
      | assign hname hvalue => exact ⟨_, _, rfl, .var hname, hvalue⟩
  | get object name =>
      cases h
      cases he with
      | set hobject hname hvalue => exact ⟨_, _, rfl, .get hobject hname, hvalue⟩
  | _ => cases h

/-- What is like the phrase is read from tokens that these can become. -/
def ExprPhrase.StaysReadable (R : Token → Token → Prop) (ts : List Token) (p : ExprPhrase) : Prop :=
  ∀ ⦃p'⦄, p.Alike R p' → CanBecome R ts fun ts' => ReadsAs ts' p'

section

variable {us : List Token} {a b e target value : Expr Unit} {es : List (Expr Unit)}

theorem staysReadable_grouping (hR : KeepsKinds R) {l r : Token}
    (hl : l.kind = .symbol .leftParen) (h : ExprPhrase.StaysReadable R ts (.expression e))
    (hr : r.kind = .symbol .rightParen) :
    ExprPhrase.StaysReadable R (l :: (ts ++ [r])) (.primary (.grouping e)) := by
  intro p' hp
  cases hp with
  | primary hp =>
      cases hp with
      | grouping he =>
          refine .consKind hR hl fun l' hl' => (h (.expression he)).append fun ts' hts' => ?_
          exact .consKind hR hr fun r' hr' => .nil (.grouping hl' hts' hr')

theorem staysReadable_call (hR : KeepsKinds R) {l r : Token} {callee : Expr Unit}
    (hcallee : ExprPhrase.StaysReadable R ts (.call callee)) (hl : l.kind = .symbol .leftParen)
    (hes : ExprPhrase.StaysReadable R us (.arguments es)) (hr : r.kind = .symbol .rightParen) :
    ExprPhrase.StaysReadable R (ts ++ l :: (us ++ [r])) (.call (.call callee r es)) := by
  intro p' hp
  cases hp with
  | call hp =>
      cases hp with
      | call hcallee' hparen hes' =>
          refine (hcallee (.call hcallee')).append fun ts' hts' => ?_
          refine .consKind hR hl fun l' hl' => (hes (.arguments hes')).append fun us' hus' => ?_
          exact .cons hparen (.nil (.call hts' hl' hus' ((hR.kind_eq hparen).trans hr)))

theorem staysReadable_get (hR : KeepsKinds R) {dot name : Token} {object : Expr Unit}
    (h : ExprPhrase.StaysReadable R ts (.call object)) (hdot : dot.kind = .symbol .dot)
    (hname : name.kind = .identifier) :
    ExprPhrase.StaysReadable R (ts ++ [dot, name]) (.call (.get object name)) := by
  intro p' hp
  cases hp with
  | call hp =>
      cases hp with
      | get hobject hname' =>
          refine (h (.call hobject)).append fun ts' hts' => .consKind hR hdot fun dot' hdot' => ?_
          exact .cons hname' (.nil (.get hts' hdot' ((hR.kind_eq hname').trans hname)))

theorem staysReadable_entry (hR : KeepsKinds R) {comma : Token}
    (he : ExprPhrase.StaysReadable R ts (.expression e)) (hcomma : comma.kind = .symbol .comma)
    (hes : ExprPhrase.StaysReadable R us (.entries es)) :
    ExprPhrase.StaysReadable R (ts ++ comma :: us) (.entries (e :: es)) := by
  intro p' hp
  cases hp with
  | entries hp =>
      cases hp with
      | cons he' hes' =>
          refine (he (.expression he')).append fun ts' hts' => ?_
          refine .consKind hR hcomma fun comma' hcomma' => ?_
          exact (hes (.entries hes')).imp fun _ => .entry hts' hcomma'

theorem staysReadable_join (hR : KeepsKinds R) {level : Level Unit} {ls : List (Level Unit)}
    {operator : Token} (hleft : ExprPhrase.StaysReadable R ts (.binary (level :: ls) a))
    (h : operator.kind ∈ level.operators)
    (hright : ExprPhrase.StaysReadable R us (.binary ls b)) :
    ExprPhrase.StaysReadable R (ts ++ operator :: us)
      (.binary (level :: ls) (level.join a operator b)) := by
  intro p' hp
  cases hp with
  | binary hlevels hp =>
      obtain ⟨a', operator', b', rfl, hoperator, ha, hb⟩ :=
        alike_join (hlevels List.mem_cons_self) hp
      refine (hleft (.binary hlevels ha)).append fun ts' hts' => .cons hoperator ?_
      exact (hright (.binary (List.subset_of_cons_subset hlevels) hb)).imp fun _ =>
        .join hts' (hR.kind_eq hoperator ▸ h)

theorem staysReadable_assign (hR : KeepsKinds R) {equals : Token}
    (htarget : ExprPhrase.StaysReadable R ts (.binary levels target))
    (hequals : equals.kind = .symbol .equal)
    (hvalue : ExprPhrase.StaysReadable R us (.expression value))
    (h : assigned? target value = some e) :
    ExprPhrase.StaysReadable R (ts ++ equals :: us) (.expression e) := by
  intro p' hp
  cases hp with
  | expression hp =>
      obtain ⟨target', value', h', htarget', hvalue'⟩ := alike_assigned h hp
      refine (htarget (.binary (List.Subset.refl _) htarget')).append fun ts' hts' => ?_
      refine .consKind hR hequals fun equals' hequals' => ?_
      exact (hvalue (.expression hvalue')).imp fun _ hus' => .assign hts' hequals' hus' h'

end

theorem ReadsAs.of_alike (hR : KeepsKinds R) {p p' : ExprPhrase} (h : ReadsAs ts p)
    (hp : p.Alike R p') : CanBecome R ts fun ts' => ReadsAs ts' p' := by
  induction h generalizing p' with
  | @literal t value h =>
      obtain ⟨t', ht⟩ := hR.exists_related t
      cases hp with
      | primary hp =>
          cases hp
          exact .cons ht (.nil (.literal (hR.kind_eq ht ▸ h)))
  | name h =>
      cases hp with
      | primary hp =>
          cases hp with
          | var hname => exact .cons hname (.nil (.name ((hR.kind_eq hname).trans h)))
  | this h =>
      cases hp with
      | primary hp =>
          cases hp with
          | this hkeyword => exact .cons hkeyword (.nil (.this ((hR.kind_eq hkeyword).trans h)))
  | grouping hl _ hr ih => exact staysReadable_grouping hR hl @ih hr hp
  | primary _ ih =>
      cases hp with
      | call hp => exact (ih (.primary hp)).imp fun _ => .primary
  | call _ hl _ hr ihcallee ihargs => exact staysReadable_call hR @ihcallee hl @ihargs hr hp
  | get _ hdot hname ih => exact staysReadable_get hR @ih hdot hname hp
  | noArguments =>
      cases hp with
      | arguments hp =>
          cases hp
          exact .nil .noArguments
  | arguments _ hcount ih =>
      cases hp with
      | arguments hp =>
          exact (ih (.entries hp)).imp fun _ hts' => .arguments hts' (hp.length_eq ▸ hcount)
  | lastEntry _ ih =>
      cases hp with
      | entries hp =>
          cases hp with
          | cons he hes =>
              cases hes
              exact (ih (.expression he)).imp fun _ => .lastEntry
  | entry _ hcomma _ ihentry ihothers =>
      exact staysReadable_entry hR @ihentry hcomma @ihothers hp
  | operand _ ih =>
      cases hp with
      | unary hp => exact (ih (.call hp)).imp fun _ => .operand
  | unary h _ ih =>
      cases hp with
      | unary hp =>
          cases hp with
          | unary hoperator he =>
              exact .cons hoperator
                ((ih (.unary he)).imp fun _ => .unary (hR.kind_eq hoperator ▸ h))
  | tightest _ ih =>
      cases hp with
      | binary _ hp => exact (ih (.unary hp)).imp fun _ => .tightest
  | tighter _ ih =>
      cases hp with
      | binary hlevels hp =>
          exact (ih (.binary (List.subset_of_cons_subset hlevels) hp)).imp fun _ => .tighter
  | join _ h _ ihleft ihright => exact staysReadable_join hR @ihleft h @ihright hp
  | plain _ ih =>
      cases hp with
      | expression hp => exact (ih (.binary (List.Subset.refl _) hp)).imp fun _ => .plain
  | assign _ hequals _ h ihtarget ihvalue =>
      exact staysReadable_assign hR @ihtarget hequals @ihvalue h hp

inductive StmtPhrase.Alike (R : Token → Token → Prop) : StmtPhrase → StmtPhrase → Prop
  | declaration {Δ : List Bool} {s s' : Stmt Unit} (h : Stmt.Alike (.ofTokens R) Δ s s') :
      StmtPhrase.Alike R (.declaration s) (.declaration s')
  | statement {Δ : List Bool} {closed : Bool} {s s' : Stmt Unit}
      (h : Stmt.Alike (.ofTokens R) Δ s s') :
      StmtPhrase.Alike R (.statement closed s) (.statement closed s')
  | declarations {Δ : List Bool} {ss ss' : List (Stmt Unit)}
      (h : Stmt.AlikeAll (.ofTokens R) Δ ss ss') :
      StmtPhrase.Alike R (.declarations ss) (.declarations ss')
  | function {Δ : List Bool} {d d' : FunctionDecl Unit}
      (h : FunctionDecl.Alike (.ofTokens R) Δ d d') :
      StmtPhrase.Alike R (.function d) (.function d')
  | methods {Δ : List Bool} {ds ds' : List (FunctionDecl Unit)}
      (h : FunctionDecl.AlikeAll (.ofTokens R) Δ ds ds') :
      StmtPhrase.Alike R (.methods ds) (.methods ds')

theorem ReadsAsOption.of_alike (hR : KeepsKinds R) {e e' : Option (Expr Unit)}
    (h : ReadsAsOption ts e) (he : Expr.AlikeOption (.ofTokens R) Δ e e') :
    CanBecome R ts fun ts' => ReadsAsOption ts' e' := by
  cases he with
  | none =>
      obtain rfl : ts = [] := h
      exact .nil rfl
  | some he => exact ReadsAs.of_alike hR h (.expression he)

theorem ReadsAsVariable.of_alike (hR : KeepsKinds R) {s s' : Stmt Unit} (h : ReadsAsVariable ts s)
    (hs : Stmt.Alike (.ofTokens R) Δ s s') : CanBecome R ts fun ts' => ReadsAsVariable ts' s' := by
  cases h with
  | bare hname hsemicolon =>
      cases hs with
      | var hname' hinitial =>
          cases hinitial
          refine .cons hname' (.consKind hR hsemicolon fun _ hsemicolon' => ?_)
          exact .nil (.bare ((hR.kind_eq hname').trans hname) hsemicolon')
  | initial hname hequals he hsemicolon =>
      cases hs with
      | var hname' hinitial =>
          cases hinitial with
          | some hinitial =>
              refine .cons hname' (.consKind hR hequals fun _ hequals' => ?_)
              refine (he.of_alike hR (.expression hinitial)).append fun ts' hts' => ?_
              refine .consKind hR hsemicolon fun _ hsemicolon' => ?_
              exact .nil (.initial ((hR.kind_eq hname').trans hname) hequals' hts' hsemicolon')

theorem ReadsAsNames.of_related (hR : KeepsKinds R) {names names' : List Token}
    (h : ReadsAsNames ts names) (hnames : List.Forall₂ R names names') :
    CanBecome R ts fun ts' => ReadsAsNames ts' names' := by
  induction h generalizing names' with
  | last hname =>
      cases hnames with
      | cons hname' hnil =>
          cases hnil
          exact .cons hname' (.nil (.last ((hR.kind_eq hname').trans hname)))
  | more hname hcomma _ ih =>
      cases hnames with
      | cons hname' hnames =>
          refine .cons hname' (.consKind hR hcomma fun _ hcomma' => ?_)
          exact (ih hnames).imp fun _ => .more ((hR.kind_eq hname').trans hname) hcomma'

theorem ReadsAsParameters.of_related (hR : KeepsKinds R) {names names' : List Token}
    (h : ReadsAsParameters ts names) (hnames : List.Forall₂ R names names') :
    CanBecome R ts fun ts' => ReadsAsParameters ts' names' := by
  cases h with
  | none =>
      cases hnames
      exact .nil .none
  | some h hcount =>
      exact (h.of_related hR hnames).imp fun _ hts' => .some hts' (hnames.length_eq ▸ hcount)

/-- The initial clauses of two loops are alike. -/
def InitialAlike (R : Token → Token → Prop) : Option (Stmt Unit) → Option (Stmt Unit) → Prop :=
  Option.Rel fun s s' => ∃ Δ, Stmt.Alike (.ofTokens R) Δ s s'

theorem ReadsAsInitial.of_alike (hR : KeepsKinds R) {initial initial' : Option (Stmt Unit)}
    (h : ReadsAsInitial ts initial) (hinitial : InitialAlike R initial initial') :
    CanBecome R ts fun ts' => ReadsAsInitial ts' initial' := by
  cases h with
  | none h =>
      cases hinitial
      exact .consKind hR h fun _ h' => .nil (.none h')
  | var_ hword h =>
      cases hinitial with
      | some hs =>
          obtain ⟨Δ, hs⟩ := hs
          exact .consKind hR hword fun _ hword' => (h.of_alike hR hs).imp fun _ => .var_ hword'
  | expression h hsemicolon =>
      cases hinitial with
      | some hs =>
          obtain ⟨Δ, hs⟩ := hs
          cases hs with
          | expression he =>
              refine (h.of_alike hR (.expression he)).append fun ts' hts' => ?_
              exact .consKind hR hsemicolon fun _ hsemicolon' => .nil (.expression hts' hsemicolon')

theorem alike_condition {condition : Option (Expr Unit)} {e' : Expr Unit}
    (h : Expr.Alike (.ofTokens R) Δ (condition.getD (.literal (.boolean true))) e') :
    ∃ condition' : Option (Expr Unit), e' = condition'.getD (.literal (.boolean true)) ∧
      Expr.AlikeOption (.ofTokens R) Δ condition condition' := by
  cases condition with
  | none =>
      cases h
      exact ⟨none, rfl, .none⟩
  | some condition => exact ⟨some e', rfl, .some h⟩

theorem alike_increment {increment : Option (Expr Unit)} {body s' : Stmt Unit}
    (h : Stmt.Alike (.ofTokens R) Δ (repeated body increment) s') :
    ∃ (Δ' : List Bool) (increment' : Option (Expr Unit)) (body' : Stmt Unit),
      s' = repeated body' increment' ∧ Expr.AlikeOption (.ofTokens R) Δ' increment increment' ∧
        Stmt.Alike (.ofTokens R) Δ' body body' := by
  cases increment with
  | none => exact ⟨Δ, none, s', rfl, .none, h⟩
  | some e =>
      cases h with
      | block h =>
          cases h with
          | cons hbody h =>
              cases h with
              | cons he h =>
                  cases h
                  cases he with
                  | expression he => exact ⟨_, some _, _, rfl, .some he, hbody⟩

/-- What a `for` stands for has its parts in known places. -/
theorem alike_forLoop {initial : Option (Stmt Unit)} {condition increment : Option (Expr Unit)}
    {body s' : Stmt Unit}
    (h : Stmt.Alike (.ofTokens R) Δ (forLoop initial condition increment body) s') :
    ∃ (Δ₁ Δ₂ : List Bool) (initial' : Option (Stmt Unit))
      (condition' increment' : Option (Expr Unit)) (body' : Stmt Unit),
      s' = forLoop initial' condition' increment' body' ∧ InitialAlike R initial initial' ∧
        Expr.AlikeOption (.ofTokens R) Δ₁ condition condition' ∧
        Expr.AlikeOption (.ofTokens R) Δ₂ increment increment' ∧
        Stmt.Alike (.ofTokens R) Δ₂ body body' := by
  cases initial with
  | none =>
      cases h with
      | loop hcondition hbody =>
          obtain ⟨condition', rfl, hcondition'⟩ := alike_condition hcondition
          obtain ⟨Δ₂, increment', body', rfl, hincrement, hbody'⟩ := alike_increment hbody
          exact ⟨Δ, Δ₂, none, condition', increment', body', rfl, .none, hcondition', hincrement,
            hbody'⟩
  | some s =>
      cases h with
      | block h =>
          cases h with
          | cons hs h =>
              cases h with
              | cons hloop h =>
                  cases h
                  cases hloop with
                  | loop hcondition hbody =>
                      obtain ⟨condition', rfl, hcondition'⟩ := alike_condition hcondition
                      obtain ⟨Δ₂, increment', body', rfl, hincrement, hbody'⟩ :=
                        alike_increment hbody
                      exact ⟨_, Δ₂, some _, condition', increment', body', rfl, .some ⟨_, hs⟩,
                        hcondition', hincrement, hbody'⟩

/-- What is like the phrase is read from tokens that these can become. -/
def StmtPhrase.StaysReadable (R : Token → Token → Prop) (ts : List Token) (p : StmtPhrase) : Prop :=
  ∀ ⦃p'⦄, p.Alike R p' → CanBecome R ts fun ts' => ReadsAsStmt ts' p'

section

variable {us vs : List Token} {word l r semicolon : Token} {e : Expr Unit}
  {body consequent alternative : Stmt Unit}

theorem staysReadable_expressionStatement (hR : KeepsKinds R) (h : ReadsAs ts (.expression e))
    (hsemicolon : semicolon.kind = .symbol .semicolon) :
    StmtPhrase.StaysReadable R (ts ++ [semicolon]) (.statement true (.expression e)) := by
  intro p' hp
  cases hp with
  | statement hp =>
      cases hp with
      | expression he =>
          refine (h.of_alike hR (.expression he)).append fun ts' hts' => ?_
          exact .consKind hR hsemicolon fun _ hsemicolon' => .nil (.expression hts' hsemicolon')

theorem staysReadable_print (hR : KeepsKinds R) (hword : word.kind = .keyword .print_)
    (h : ReadsAs ts (.expression e)) (hsemicolon : semicolon.kind = .symbol .semicolon) :
    StmtPhrase.StaysReadable R (word :: (ts ++ [semicolon])) (.statement true (.print e)) := by
  intro p' hp
  cases hp with
  | statement hp =>
      cases hp with
      | print he =>
          refine .consKind hR hword fun _ hword' => ?_
          refine (h.of_alike hR (.expression he)).append fun ts' hts' => ?_
          exact .consKind hR hsemicolon fun _ hsemicolon' => .nil (.print hword' hts' hsemicolon')

theorem staysReadable_return (hR : KeepsKinds R) {value : Option (Expr Unit)}
    (hword : word.kind = .keyword .return_) (h : ReadsAsOption ts value)
    (hsemicolon : semicolon.kind = .symbol .semicolon) :
    StmtPhrase.StaysReadable R (word :: (ts ++ [semicolon]))
      (.statement true (.ret word value)) := by
  intro p' hp
  cases hp with
  | statement hp =>
      cases hp with
      | ret hkeyword hvalue =>
          refine .cons hkeyword ((h.of_alike hR hvalue).append fun ts' hts' => ?_)
          exact .consKind hR hsemicolon fun _ hsemicolon' =>
            .nil (.ret ((hR.kind_eq hkeyword).trans hword) hts' hsemicolon')

theorem staysReadable_block (hR : KeepsKinds R) {ss : List (Stmt Unit)}
    (hl : l.kind = .symbol .leftBrace) (h : StmtPhrase.StaysReadable R ts (.declarations ss))
    (hr : r.kind = .symbol .rightBrace) :
    StmtPhrase.StaysReadable R (l :: (ts ++ [r])) (.statement true (.block ss)) := by
  intro p' hp
  cases hp with
  | statement hp =>
      cases hp with
      | block hbody =>
          refine .consKind hR hl fun _ hl' => (h (.declarations hbody)).append fun ts' hts' => ?_
          exact .consKind hR hr fun _ hr' => .nil (.block hl' hts' hr')

theorem canBecome_condition (hR : KeepsKinds R) {keyword : Keyword} {P : List Token → Prop}
    (hword : word.kind = .keyword keyword) (hl : l.kind = .symbol .leftParen)
    (he : CanBecome R ts fun ts' => ReadsAs ts' (.expression e))
    (hr : r.kind = .symbol .rightParen)
    (h : ∀ word' l' ts' r', word'.kind = .keyword keyword → l'.kind = .symbol .leftParen →
      ReadsAs ts' (.expression e) → r'.kind = .symbol .rightParen →
        CanBecome R us fun us' => P (word' :: l' :: (ts' ++ r' :: us'))) :
    CanBecome R (word :: l :: (ts ++ r :: us)) P :=
  .consKind hR hword fun word' hword' => .consKind hR hl fun l' hl' =>
    he.append fun ts' hts' => .consKind hR hr fun r' hr' => h word' l' ts' r' hword' hl' hts' hr'

theorem staysReadable_branch (hR : KeepsKinds R) {closed : Bool} (hword : word.kind = .keyword .if_)
    (hl : l.kind = .symbol .leftParen) (h : ReadsAs ts (.expression e))
    (hr : r.kind = .symbol .rightParen)
    (hconsequent : StmtPhrase.StaysReadable R us (.statement closed consequent)) :
    StmtPhrase.StaysReadable R (word :: l :: (ts ++ r :: us))
      (.statement false (.branch e consequent none)) := by
  intro p' hp
  cases hp with
  | statement hp =>
      cases hp with
      | branch he hs =>
          refine canBecome_condition hR hword hl (h.of_alike hR (.expression he)) hr
            fun word' l' ts' r' hword' hl' hts' hr' => ?_
          exact (hconsequent (.statement hs)).imp fun _ => .branch hword' hl' hts' hr'

theorem staysReadable_branches (hR : KeepsKinds R) {closed : Bool} {other : Token}
    (hword : word.kind = .keyword .if_) (hl : l.kind = .symbol .leftParen)
    (h : ReadsAs ts (.expression e)) (hr : r.kind = .symbol .rightParen)
    (hconsequent : StmtPhrase.StaysReadable R us (.statement true consequent))
    (hother : other.kind = .keyword .else_)
    (halternative : StmtPhrase.StaysReadable R vs (.statement closed alternative)) :
    StmtPhrase.StaysReadable R (word :: l :: (ts ++ r :: (us ++ other :: vs)))
      (.statement closed (.branch e consequent (some alternative))) := by
  intro p' hp
  cases hp with
  | statement hp =>
      cases hp with
      | branches he hs halternative' =>
          refine canBecome_condition hR hword hl (h.of_alike hR (.expression he)) hr
            fun word' l' ts' r' hword' hl' hts' hr' => ?_
          refine (hconsequent (.statement hs)).append fun us' hus' => ?_
          refine .consKind hR hother fun _ hother' => ?_
          exact (halternative (.statement halternative')).imp fun _ =>
            .branches hword' hl' hts' hr' hus' hother'

theorem staysReadable_loop (hR : KeepsKinds R) {closed : Bool}
    (hword : word.kind = .keyword .while_) (hl : l.kind = .symbol .leftParen)
    (h : ReadsAs ts (.expression e)) (hr : r.kind = .symbol .rightParen)
    (hbody : StmtPhrase.StaysReadable R us (.statement closed body)) :
    StmtPhrase.StaysReadable R (word :: l :: (ts ++ r :: us))
      (.statement closed (.loop e body)) := by
  intro p' hp
  cases hp with
  | statement hp =>
      cases hp with
      | loop he hs =>
          refine canBecome_condition hR hword hl (h.of_alike hR (.expression he)) hr
            fun word' l' ts' r' hword' hl' hts' hr' => ?_
          exact (hbody (.statement hs)).imp fun _ => .loop hword' hl' hts' hr'

theorem staysReadable_forLoop (hR : KeepsKinds R) {closed : Bool} {is cs ns : List Token}
    {initial : Option (Stmt Unit)} {condition increment : Option (Expr Unit)}
    (hword : word.kind = .keyword .for_) (hl : l.kind = .symbol .leftParen)
    (hinitial : ReadsAsInitial is initial) (hcondition : ReadsAsOption cs condition)
    (hsemicolon : semicolon.kind = .symbol .semicolon) (hincrement : ReadsAsOption ns increment)
    (hr : r.kind = .symbol .rightParen)
    (hbody : StmtPhrase.StaysReadable R us (.statement closed body)) :
    StmtPhrase.StaysReadable R (word :: l :: (is ++ (cs ++ semicolon :: (ns ++ r :: us))))
      (.statement closed (forLoop initial condition increment body)) := by
  intro p' hp
  cases hp with
  | statement hp =>
      obtain ⟨Δ₁, Δ₂, initial', condition', increment', body', rfl, hinitial', hcondition',
        hincrement', hbody'⟩ := alike_forLoop hp
      refine .consKind hR hword fun _ hword' => .consKind hR hl fun _ hl' => ?_
      refine (hinitial.of_alike hR hinitial').append fun is' his' => ?_
      refine (hcondition.of_alike hR hcondition').append fun cs' hcs' => ?_
      refine .consKind hR hsemicolon fun _ hsemicolon' => ?_
      refine (hincrement.of_alike hR hincrement').append fun ns' hns' => ?_
      refine .consKind hR hr fun _ hr' => ?_
      exact (hbody (.statement hbody')).imp fun _ =>
        .forLoop hword' hl' his' hcs' hsemicolon' hns' hr'

theorem staysReadable_class (hR : KeepsKinds R) {name : Token} {ds : List (FunctionDecl Unit)}
    (hword : word.kind = .keyword .class_) (hname : name.kind = .identifier)
    (hl : l.kind = .symbol .leftBrace) (h : StmtPhrase.StaysReadable R ts (.methods ds))
    (hr : r.kind = .symbol .rightBrace) :
    StmtPhrase.StaysReadable R (word :: name :: l :: (ts ++ [r]))
      (.declaration (.class_ name ds)) := by
  intro p' hp
  cases hp with
  | declaration hp =>
      cases hp with
      | class_ hname' hds =>
          refine .consKind hR hword fun _ hword' => .cons hname' ?_
          refine .consKind hR hl fun _ hl' => (h (.methods hds)).append fun ts' hts' => ?_
          exact .consKind hR hr fun _ hr' =>
            .nil (.class_ hword' ((hR.kind_eq hname').trans hname) hl' hts' hr')

theorem staysReadable_body (hR : KeepsKinds R) {name opening closing : Token}
    {names : List Token} {ss : List (Stmt Unit)} (hname : name.kind = .identifier)
    (hl : l.kind = .symbol .leftParen) (hnames : ReadsAsParameters ts names)
    (hr : r.kind = .symbol .rightParen) (hopening : opening.kind = .symbol .leftBrace)
    (h : StmtPhrase.StaysReadable R us (.declarations ss))
    (hclosing : closing.kind = .symbol .rightBrace) :
    StmtPhrase.StaysReadable R (name :: l :: (ts ++ r :: opening :: (us ++ [closing])))
      (.function ⟨name, names, ss⟩) := by
  intro p' hp
  cases hp with
  | function hp =>
      cases hp with
      | mk hname' hnames' hbody =>
          refine .cons hname' (.consKind hR hl fun _ hl' => ?_)
          refine (hnames.of_related hR hnames').append fun ps' hps' => ?_
          refine .consKind hR hr fun _ hr' => .consKind hR hopening fun _ hopening' => ?_
          refine (h (.declarations hbody)).append fun ts' hts' => ?_
          exact .consKind hR hclosing fun _ hclosing' =>
            .nil (.body ((hR.kind_eq hname').trans hname) hl' hps' hr' hopening' hts' hclosing')

end

/-- A statement like one that is read is read as well. -/
theorem ReadsAsStmt.of_alike (hR : KeepsKinds R) {p p' : StmtPhrase} (h : ReadsAsStmt ts p)
    (hp : p.Alike R p') : CanBecome R ts fun ts' => ReadsAsStmt ts' p' := by
  induction h generalizing p' with
  | expression h hsemicolon => exact staysReadable_expressionStatement hR h hsemicolon hp
  | print hword h hsemicolon => exact staysReadable_print hR hword h hsemicolon hp
  | ret hword h hsemicolon => exact staysReadable_return hR hword h hsemicolon hp
  | block hl _ hr ih => exact staysReadable_block hR hl @ih hr hp
  | branch hword hl h hr _ ih => exact staysReadable_branch hR hword hl h hr @ih hp
  | branches hword hl h hr _ hother _ ihconsequent ihalternative =>
      exact staysReadable_branches hR hword hl h hr @ihconsequent hother @ihalternative hp
  | loop hword hl h hr _ ih => exact staysReadable_loop hR hword hl h hr @ih hp
  | forLoop hword hl hinitial hcondition hsemicolon hincrement hr _ ih =>
      exact staysReadable_forLoop hR hword hl hinitial hcondition hsemicolon hincrement hr @ih hp
  | statement _ ih =>
      cases hp with
      | declaration hp => exact (ih (.statement hp)).imp fun _ => .statement
  | var_ hword h =>
      cases hp with
      | declaration hp =>
          exact .consKind hR hword fun _ hword' => (h.of_alike hR hp).imp fun _ => .var_ hword'
  | function hword _ ih =>
      cases hp with
      | declaration hp =>
          cases hp with
          | function _ hd =>
              refine .consKind hR hword fun _ hword' => ?_
              exact (ih (.function hd)).imp fun _ => .function hword'
  | class_ hword hname hl _ hr ih => exact staysReadable_class hR hword hname hl @ih hr hp
  | noDeclarations =>
      cases hp with
      | declarations hp =>
          cases hp
          exact .nil .noDeclarations
  | declarations _ _ ihs ihss =>
      cases hp with
      | declarations hp =>
          cases hp with
          | cons hs hss =>
              refine (ihs (.declaration hs)).append fun ts' hts' => ?_
              exact (ihss (.declarations hss)).imp fun _ => .declarations hts'
  | noMethods =>
      cases hp with
      | methods hp =>
          cases hp
          exact .nil .noMethods
  | methods _ _ ihd ihds =>
      cases hp with
      | methods hp =>
          cases hp with
          | cons hd hds =>
              refine (ihd (.function hd)).append fun ts' hts' => ?_
              exact (ihds (.methods hds)).imp fun _ => .methods hts'
  | body hname hl hparams hr hopen _ hclose ih =>
      exact staysReadable_body hR hname hl hparams hr hopen @ih hclose hp

end Parsing

end Lox
