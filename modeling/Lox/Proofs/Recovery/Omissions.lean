import Lox.Proofs.Recovery.Refusals
import Lox.Proofs.Syntax.Linearization

/-!
Programs with a declaration left out.

A semicolon that comes before a closing brace, the end, or a word that starts a statement is the
last token of the innermost declaration that it is in. Without the tokens of that declaration the
others stand for the same program, in which it is left out.
-/

namespace Lox.Parsing

/-- The tokens that come first, the item and the tokens after it stand for the first phrase, where
the item stands for a declaration in some block of that phrase or in the phrase itself. The second
phrase is the first without this declaration. -/
inductive Omits : List Token → List Token → List Token → StmtPhrase → StmtPhrase → Prop
  | here {item after : List Token} {s : Stmt Unit} {ss : List (Stmt Unit)}
      (hitem : ReadsAsStmt item (.declaration s)) (hafter : ReadsAsStmt after (.declarations ss)) :
      Omits [] item after (.declarations (s :: ss)) (.declarations ss)
  | later {ts before item after : List Token} {s : Stmt Unit} {ss ss' : List (Stmt Unit)}
      (hs : ReadsAsStmt ts (.declaration s))
      (h : Omits before item after (.declarations ss) (.declarations ss')) :
      Omits (ts ++ before) item after (.declarations (s :: ss)) (.declarations (s :: ss'))
  | inside {us before item after : List Token} {s s' : Stmt Unit} {ss : List (Stmt Unit)}
      (h : Omits before item after (.declaration s) (.declaration s'))
      (hss : ReadsAsStmt us (.declarations ss)) :
      Omits before item (after ++ us) (.declarations (s :: ss)) (.declarations (s' :: ss))
  | statement {before item after : List Token} {closed : Bool} {s s' : Stmt Unit}
      (h : Omits before item after (.statement closed s) (.statement closed s')) :
      Omits before item after (.declaration s) (.declaration s')
  | function {word : Token} {before item after : List Token} {d d' : FunctionDecl Unit}
      (hword : word.kind = .keyword .fun_)
      (h : Omits before item after (.function d) (.function d')) :
      Omits (word :: before) item after (.declaration (.function d)) (.declaration (.function d'))
  | class_ {word name l r : Token} {before item after : List Token}
      {ds ds' : List (FunctionDecl Unit)} (hword : word.kind = .keyword .class_)
      (hname : name.kind = .identifier) (hl : l.kind = .symbol .leftBrace)
      (h : Omits before item after (.methods ds) (.methods ds'))
      (hr : r.kind = .symbol .rightBrace) :
      Omits (word :: name :: l :: before) item (after ++ [r]) (.declaration (.class_ name ds))
        (.declaration (.class_ name ds'))
  | laterMethod {ts before item after : List Token} {d : FunctionDecl Unit}
      {ds ds' : List (FunctionDecl Unit)} (hd : ReadsAsStmt ts (.function d))
      (h : Omits before item after (.methods ds) (.methods ds')) :
      Omits (ts ++ before) item after (.methods (d :: ds)) (.methods (d :: ds'))
  | method {us before item after : List Token} {d d' : FunctionDecl Unit}
      {ds : List (FunctionDecl Unit)} (h : Omits before item after (.function d) (.function d'))
      (hds : ReadsAsStmt us (.methods ds)) :
      Omits before item (after ++ us) (.methods (d :: ds)) (.methods (d' :: ds))
  | body {name l r open_ close : Token} {ps params before item after : List Token}
      {ss ss' : List (Stmt Unit)} (hname : name.kind = .identifier)
      (hl : l.kind = .symbol .leftParen) (hparams : ReadsAsParameters ps params)
      (hr : r.kind = .symbol .rightParen) (hopen : open_.kind = .symbol .leftBrace)
      (h : Omits before item after (.declarations ss) (.declarations ss'))
      (hclose : close.kind = .symbol .rightBrace) :
      Omits (name :: l :: (ps ++ r :: open_ :: before)) item (after ++ [close])
        (.function ⟨name, params, ss⟩) (.function ⟨name, params, ss'⟩)
  | block {l r : Token} {before item after : List Token} {ss ss' : List (Stmt Unit)}
      (hl : l.kind = .symbol .leftBrace)
      (h : Omits before item after (.declarations ss) (.declarations ss'))
      (hr : r.kind = .symbol .rightBrace) :
      Omits (l :: before) item (after ++ [r]) (.statement true (.block ss))
        (.statement true (.block ss'))
  | branch {word l r : Token} {ts before item after : List Token} {condition : Expr Unit}
      {closed : Bool} {s s' : Stmt Unit} (hword : word.kind = .keyword .if_)
      (hl : l.kind = .symbol .leftParen) (hcondition : ReadsAs ts (.expression condition))
      (hr : r.kind = .symbol .rightParen)
      (h : Omits before item after (.statement closed s) (.statement closed s')) :
      Omits (word :: l :: (ts ++ r :: before)) item after
        (.statement false (.branch condition s none)) (.statement false (.branch condition s' none))
  | consequent {word l r other : Token} {ts us before item after : List Token}
      {condition : Expr Unit} {closed : Bool} {s s' alternative : Stmt Unit}
      (hword : word.kind = .keyword .if_) (hl : l.kind = .symbol .leftParen)
      (hcondition : ReadsAs ts (.expression condition)) (hr : r.kind = .symbol .rightParen)
      (h : Omits before item after (.statement true s) (.statement true s'))
      (hother : other.kind = .keyword .else_)
      (halternative : ReadsAsStmt us (.statement closed alternative)) :
      Omits (word :: l :: (ts ++ r :: before)) item (after ++ other :: us)
        (.statement closed (.branch condition s (some alternative)))
        (.statement closed (.branch condition s' (some alternative)))
  | alternative {word l r other : Token} {ts us before item after : List Token}
      {condition : Expr Unit} {closed : Bool} {consequent s s' : Stmt Unit}
      (hword : word.kind = .keyword .if_) (hl : l.kind = .symbol .leftParen)
      (hcondition : ReadsAs ts (.expression condition)) (hr : r.kind = .symbol .rightParen)
      (hconsequent : ReadsAsStmt us (.statement true consequent))
      (hother : other.kind = .keyword .else_)
      (h : Omits before item after (.statement closed s) (.statement closed s')) :
      Omits (word :: l :: (ts ++ r :: (us ++ other :: before))) item after
        (.statement closed (.branch condition consequent (some s)))
        (.statement closed (.branch condition consequent (some s')))
  | loop {word l r : Token} {ts before item after : List Token} {condition : Expr Unit}
      {closed : Bool} {s s' : Stmt Unit} (hword : word.kind = .keyword .while_)
      (hl : l.kind = .symbol .leftParen) (hcondition : ReadsAs ts (.expression condition))
      (hr : r.kind = .symbol .rightParen)
      (h : Omits before item after (.statement closed s) (.statement closed s')) :
      Omits (word :: l :: (ts ++ r :: before)) item after (.statement closed (.loop condition s))
        (.statement closed (.loop condition s'))
  | forLoop {word l semicolon r : Token} {is cs ns before item after : List Token}
      {initial : Option (Stmt Unit)} {condition increment : Option (Expr Unit)} {closed : Bool}
      {s s' : Stmt Unit} (hword : word.kind = .keyword .for_) (hl : l.kind = .symbol .leftParen)
      (hinitial : ReadsAsInitial is initial) (hcondition : ReadsAsOption cs condition)
      (hsemicolon : semicolon.kind = .symbol .semicolon) (hincrement : ReadsAsOption ns increment)
      (hr : r.kind = .symbol .rightParen)
      (h : Omits before item after (.statement closed s) (.statement closed s')) :
      Omits (word :: l :: (is ++ (cs ++ semicolon :: (ns ++ r :: before)))) item after
        (.statement closed (forLoop initial condition increment s))
        (.statement closed (forLoop initial condition increment s'))

/-- The tokens stand for the phrase, and without the item for the phrase that lacks it. -/
theorem Omits.readsAs {before item after : List Token} {p p' : StmtPhrase}
    (h : Omits before item after p p') :
    ReadsAsStmt (before ++ (item ++ after)) p ∧ ReadsAsStmt (before ++ after) p' := by
  induction h with
  | here hitem hafter =>
      rw [List.nil_append, List.nil_append]
      exact ⟨.declarations hitem hafter, hafter⟩
  | later hs _ ih =>
      rw [List.append_assoc, List.append_assoc]
      exact ⟨.declarations hs ih.1, .declarations hs ih.2⟩
  | inside _ hss ih =>
      exact ⟨by simpa using ReadsAsStmt.declarations ih.1 hss,
        by simpa using ReadsAsStmt.declarations ih.2 hss⟩
  | statement _ ih => exact ⟨.statement ih.1, .statement ih.2⟩
  | function hword _ ih => exact ⟨.function hword ih.1, .function hword ih.2⟩
  | class_ hword hname hl _ hr ih =>
      exact ⟨by simpa using ReadsAsStmt.class_ hword hname hl ih.1 hr,
        by simpa using ReadsAsStmt.class_ hword hname hl ih.2 hr⟩
  | laterMethod hd _ ih =>
      rw [List.append_assoc, List.append_assoc]
      exact ⟨.methods hd ih.1, .methods hd ih.2⟩
  | method _ hds ih =>
      exact ⟨by simpa using ReadsAsStmt.methods ih.1 hds,
        by simpa using ReadsAsStmt.methods ih.2 hds⟩
  | body hname hl hparams hr hopen _ hclose ih =>
      exact ⟨by simpa using ReadsAsStmt.body hname hl hparams hr hopen ih.1 hclose,
        by simpa using ReadsAsStmt.body hname hl hparams hr hopen ih.2 hclose⟩
  | block hl _ hr ih =>
      exact ⟨by simpa using ReadsAsStmt.block hl ih.1 hr,
        by simpa using ReadsAsStmt.block hl ih.2 hr⟩
  | branch hword hl hcondition hr _ ih =>
      exact ⟨by simpa using ReadsAsStmt.branch hword hl hcondition hr ih.1,
        by simpa using ReadsAsStmt.branch hword hl hcondition hr ih.2⟩
  | consequent hword hl hcondition hr _ hother halternative ih =>
      exact ⟨by simpa using ReadsAsStmt.branches hword hl hcondition hr ih.1 hother halternative,
        by simpa using ReadsAsStmt.branches hword hl hcondition hr ih.2 hother halternative⟩
  | alternative hword hl hcondition hr hconsequent hother _ ih =>
      exact ⟨by simpa using ReadsAsStmt.branches hword hl hcondition hr hconsequent hother ih.1,
        by simpa using ReadsAsStmt.branches hword hl hcondition hr hconsequent hother ih.2⟩
  | loop hword hl hcondition hr _ ih =>
      exact ⟨by simpa using ReadsAsStmt.loop hword hl hcondition hr ih.1,
        by simpa using ReadsAsStmt.loop hword hl hcondition hr ih.2⟩
  | forLoop hword hl hinitial hcondition hsemicolon hincrement hr _ ih =>
      exact ⟨by simpa using
          ReadsAsStmt.forLoop hword hl hinitial hcondition hsemicolon hincrement hr ih.1,
        by simpa using
          ReadsAsStmt.forLoop hword hl hinitial hcondition hsemicolon hincrement hr ih.2⟩

theorem Omits.exists_item {before item after : List Token} {p p' : StmtPhrase}
    (h : Omits before item after p p') : ∃ s, ReadsAsStmt item (.declaration s) := by
  induction h with
  | here hitem _ => exact ⟨_, hitem⟩
  | _ => assumption

/-- The kinds of token that stand between expressions. -/
def separates (k : Kind) : Bool :=
  startsStatement k || k ∈ [Kind.symbol .semicolon, .symbol .leftBrace, .symbol .rightBrace]

theorem not_inExpressions_of_separates {k : Kind} (h : separates k) : ¬inExpressions k := by
  cases k with
  | symbol s => cases s <;> first | exact absurd h (by decide) | decide
  | keyword w => cases w <;> first | exact absurd h (by decide) | decide
  | _ => simp [separates, startsStatement] at h

theorem ReadsAs.not_separates {ts : List Token} {e : Expr Unit} (h : ReadsAs ts (.expression e)) :
    ∀ t ∈ ts, ¬separates t.kind := by
  intro t ht hseparates
  exact not_inExpressions_of_separates hseparates
    (h.kinds_inExpressions List.nil_suffix t ht)

theorem ReadsAsOption.not_separates {ts : List Token} {e : Option (Expr Unit)}
    (h : ReadsAsOption ts e) : ∀ t ∈ ts, ¬separates t.kind := by
  cases e with
  | none =>
      cases h
      simp
  | some e => exact ReadsAs.not_separates h

theorem ReadsAsNames.not_separates {ts names : List Token} (h : ReadsAsNames ts names) :
    ∀ t ∈ ts, ¬separates t.kind := by
  induction h with
  | last hname => simp [hname, separates, startsStatement]
  | more hname hcomma _ ih => simpa [hname, hcomma, separates, startsStatement] using ih

theorem ReadsAsParameters.not_separates {ts names : List Token} (h : ReadsAsParameters ts names) :
    ∀ t ∈ ts, ¬separates t.kind := by
  cases h with
  | none => simp
  | some h _ => exact h.not_separates

section

variable {semicolon : Token} {xs ys pre post : List Token}

theorem mem_append_split (h : xs ++ ys = pre ++ semicolon :: post) :
    (∃ more, xs = pre ++ semicolon :: more ∧ post = more ++ ys) ∨
      ∃ more, pre = xs ++ more ∧ ys = more ++ semicolon :: post := by
  rcases List.append_eq_append_iff.mp h with ⟨more, hpre, hys⟩ | ⟨more, hxs, hpost⟩
  · exact .inr ⟨more, hpre, hys⟩
  · cases more with
    | nil => exact .inr ⟨[], by simpa using hxs.symm, by simpa using hpost.symm⟩
    | cons t more =>
        obtain ⟨rfl, rfl⟩ := List.cons.inj hpost
        exact .inl ⟨more, hxs, rfl⟩

variable (hsemicolon : semicolon.kind = .symbol .semicolon)
include hsemicolon

theorem skip_tokens (hxs : ∀ t ∈ xs, ¬separates t.kind) (h : xs ++ ys = pre ++ semicolon :: post) :
    ∃ more, pre = xs ++ more ∧ ys = more ++ semicolon :: post := by
  rcases mem_append_split h with ⟨more, rfl, -⟩ | hlater
  · refine absurd ?_ (hxs semicolon (by simp))
    rw [hsemicolon]
    decide
  · exact hlater

theorem skip_token {t : Token} (ht : t.kind ≠ .symbol .semicolon)
    (h : t :: ys = pre ++ semicolon :: post) :
    ∃ more, pre = t :: more ∧ ys = more ++ semicolon :: post := by
  rcases List.cons_eq_append_iff.mp h with ⟨-, hnil⟩ | hlater
  · obtain ⟨rfl, -⟩ := List.cons.inj hnil
    exact absurd hsemicolon ht
  · exact hlater

theorem eq_nil_of_last {last : Token} (hxs : ∀ t ∈ xs, ¬separates t.kind)
    (h : xs ++ [last] = pre ++ semicolon :: post) : post = [] := by
  obtain ⟨more, -, hlast⟩ := skip_tokens hsemicolon hxs h
  cases more with
  | nil => exact (List.cons.inj hlast).2.symm
  | cons t more => simp at hlast

theorem ReadsAsVariable.eq_nil {ts : List Token} {s : Stmt Unit} (h : ReadsAsVariable ts s)
    (hts : ts = pre ++ semicolon :: post) : post = [] := by
  cases h with
  | @bare name last hname _ =>
      have hname : ∀ t ∈ [name], ¬separates t.kind := by
        simp [hname, separates, startsStatement]
      exact eq_nil_of_last hsemicolon hname hts
  | @initial name equals last us e hname hequals he _ =>
      have hinitial : ∀ t ∈ name :: equals :: us, ¬separates t.kind := by
        simpa [hname, hequals, separates, startsStatement] using he.not_separates
      exact eq_nil_of_last hsemicolon hinitial hts

theorem ReadsAsInitial.eq_nil {ts : List Token} {s : Option (Stmt Unit)} (h : ReadsAsInitial ts s)
    (hts : ts = pre ++ semicolon :: post) : post = [] := by
  cases h with
  | @none last _ => exact eq_nil_of_last hsemicolon (List.forall_mem_nil _) hts
  | var_ hword h =>
      obtain ⟨more, rfl, hmore⟩ := skip_token hsemicolon (by rw [hword]; decide) hts
      exact h.eq_nil hsemicolon hmore
  | expression he _ => exact eq_nil_of_last hsemicolon he.not_separates hts

theorem split_before_last {last : Token} (hlast : last.kind ≠ .symbol .semicolon)
    (h : xs ++ [last] = pre ++ semicolon :: post) :
    ∃ more, xs = pre ++ semicolon :: more ∧ post = more ++ [last] := by
  rcases mem_append_split h with hxs | ⟨more, -, hmore⟩
  · exact hxs
  · obtain ⟨_, -, hnil⟩ := skip_token hsemicolon hlast hmore
    simp at hnil

theorem skip_condition {word l r : Token} {condition : Expr Unit} {w : Keyword}
    (hword : word.kind = .keyword w) (hl : l.kind = .symbol .leftParen)
    (hcondition : ReadsAs xs (.expression condition)) (hr : r.kind = .symbol .rightParen)
    (h : word :: l :: (xs ++ r :: ys) = pre ++ semicolon :: post) :
    ∃ more, pre = word :: l :: (xs ++ r :: more) ∧ ys = more ++ semicolon :: post := by
  obtain ⟨_, rfl, h₁⟩ := skip_token hsemicolon (by rw [hword]; simp) h
  obtain ⟨_, rfl, h₂⟩ := skip_token hsemicolon (by rw [hl]; decide) h₁
  obtain ⟨_, rfl, h₃⟩ := skip_tokens hsemicolon hcondition.not_separates h₂
  obtain ⟨more, rfl, h₄⟩ := skip_token hsemicolon (by rw [hr]; decide) h₃
  exact ⟨more, rfl, h₄⟩

theorem skip_class {word name l r : Token} (hword : word.kind = .keyword .class_)
    (hname : name.kind = .identifier) (hl : l.kind = .symbol .leftBrace)
    (hr : r.kind = .symbol .rightBrace)
    (h : word :: name :: l :: (xs ++ [r]) = pre ++ semicolon :: post) :
    ∃ before after, pre = word :: name :: l :: before ∧ xs = before ++ semicolon :: after ∧
      post = after ++ [r] := by
  obtain ⟨_, rfl, h₁⟩ := skip_token hsemicolon (by rw [hword]; decide) h
  obtain ⟨_, rfl, h₂⟩ := skip_token hsemicolon (by rw [hname]; decide) h₁
  obtain ⟨before, rfl, h₃⟩ := skip_token hsemicolon (by rw [hl]; decide) h₂
  obtain ⟨after, hxs, hpost⟩ := split_before_last hsemicolon (by rw [hr]; decide) h₃
  exact ⟨before, after, rfl, hxs, hpost⟩

theorem skip_body {name l r open_ close : Token} {ps params : List Token}
    (hname : name.kind = .identifier) (hl : l.kind = .symbol .leftParen)
    (hparams : ReadsAsParameters ps params) (hr : r.kind = .symbol .rightParen)
    (hopen : open_.kind = .symbol .leftBrace) (hclose : close.kind = .symbol .rightBrace)
    (h : name :: l :: (ps ++ r :: open_ :: (xs ++ [close])) = pre ++ semicolon :: post) :
    ∃ before after, pre = name :: l :: (ps ++ r :: open_ :: before) ∧
      xs = before ++ semicolon :: after ∧ post = after ++ [close] := by
  obtain ⟨_, rfl, h₁⟩ := skip_token hsemicolon (by rw [hname]; decide) h
  obtain ⟨_, rfl, h₂⟩ := skip_token hsemicolon (by rw [hl]; decide) h₁
  obtain ⟨_, rfl, h₃⟩ := skip_tokens hsemicolon hparams.not_separates h₂
  obtain ⟨_, rfl, h₄⟩ := skip_token hsemicolon (by rw [hr]; decide) h₃
  obtain ⟨before, rfl, h₅⟩ := skip_token hsemicolon (by rw [hopen]; decide) h₄
  obtain ⟨after, hxs, hpost⟩ := split_before_last hsemicolon (by rw [hclose]; decide) h₅
  exact ⟨before, after, rfl, hxs, hpost⟩

end

theorem not_follows_of_option {ts rest : List Token} {e : Option (Expr Unit)} {close : Token}
    {s : Symbol} (h : ReadsAsOption ts e) (hclose : close.kind = .symbol s)
    (hs : s ≠ .rightBrace) : ¬Follows (ts ++ close :: rest) := by
  intro hfollows
  cases e with
  | none =>
      cases h
      exact hfollows.ne_symbol hs close rfl hclose
  | some e =>
      obtain ⟨t, us, rfl, ht⟩ := ReadsAs.starts h (by simp)
      exact hfollows.not_startsExpression t rfl ht

theorem skip_clauses {word l second r semicolon : Token} {is cs ns ys pre post : List Token}
    {initial : Option (Stmt Unit)} {condition increment : Option (Expr Unit)}
    (hsemicolon : semicolon.kind = .symbol .semicolon) (hword : word.kind = .keyword .for_)
    (hl : l.kind = .symbol .leftParen) (hinitial : ReadsAsInitial is initial)
    (hcondition : ReadsAsOption cs condition) (hsecond : second.kind = .symbol .semicolon)
    (hincrement : ReadsAsOption ns increment) (hr : r.kind = .symbol .rightParen)
    (h : word :: l :: (is ++ (cs ++ second :: (ns ++ r :: ys))) = pre ++ semicolon :: post)
    (tail : List Token) (hfollows : Follows (post ++ tail)) :
    ∃ more, pre = word :: l :: (is ++ (cs ++ second :: (ns ++ r :: more))) ∧
      ys = more ++ semicolon :: post := by
  obtain ⟨_, rfl, h₁⟩ := skip_token hsemicolon (by rw [hword]; decide) h
  obtain ⟨_, rfl, h₂⟩ := skip_token hsemicolon (by rw [hl]; decide) h₁
  rcases mem_append_split h₂ with ⟨m, his, rfl⟩ | ⟨_, rfl, h₃⟩
  · obtain rfl := hinitial.eq_nil hsemicolon his
    rw [List.nil_append, List.append_assoc] at hfollows
    exact absurd hfollows (not_follows_of_option hcondition hsecond (by decide))
  obtain ⟨_, rfl, h₄⟩ := skip_tokens hsemicolon hcondition.not_separates h₃
  rcases List.cons_eq_append_iff.mp h₄ with ⟨rfl, hnil⟩ | ⟨_, rfl, h₅⟩
  · obtain ⟨rfl, rfl⟩ := List.cons.inj hnil
    rw [List.append_assoc] at hfollows
    exact absurd hfollows (not_follows_of_option hincrement hr (by decide))
  obtain ⟨_, rfl, h₆⟩ := skip_tokens hsemicolon hincrement.not_separates h₅
  obtain ⟨more, rfl, h₇⟩ := skip_token hsemicolon (by rw [hr]; decide) h₆
  exact ⟨more, rfl, h₇⟩

/-- The semicolon is the last token of an item, and the second phrase is the first without it. -/
def Loses (semicolon : Token) (pre post : List Token) (p p' : StmtPhrase) : Prop :=
  ∃ before item, pre = before ++ item ∧ Omits before (item ++ [semicolon]) post p p'

/-- The semicolon is the last token of an item of a block, or else of the phrase itself. -/
def StmtPhrase.SplitsAt (semicolon : Token) (pre post : List Token) : StmtPhrase → Prop
  | .declaration s =>
      post = [] ∨ ∃ s', Loses semicolon pre post (.declaration s) (.declaration s')
  | .statement closed s =>
      post = [] ∨ ∃ s', Loses semicolon pre post (.statement closed s) (.statement closed s')
  | .declarations ss => ∃ ss', Loses semicolon pre post (.declarations ss) (.declarations ss')
  | .function d => ∃ d', Loses semicolon pre post (.function d) (.function d')
  | .methods ds => ∃ ds', Loses semicolon pre post (.methods ds) (.methods ds')

theorem ReadsAsStmt.splitsAt {semicolon : Token} {ts pre post : List Token} {p : StmtPhrase}
    (h : ReadsAsStmt ts p) (hsemicolon : semicolon.kind = .symbol .semicolon)
    (hts : ts = pre ++ semicolon :: post) (tail : List Token) (hfollows : Follows (post ++ tail)) :
    p.SplitsAt semicolon pre post := by
  induction h generalizing pre post tail with
  | expression he _ => exact .inl (eq_nil_of_last hsemicolon he.not_separates hts)
  | print hword he _ =>
      obtain ⟨more, rfl, hmore₁⟩ := skip_token hsemicolon (by rw [hword]; decide) hts
      exact .inl (eq_nil_of_last hsemicolon he.not_separates hmore₁)
  | ret hword hvalue _ =>
      obtain ⟨more, rfl, hmore₁⟩ := skip_token hsemicolon (by rw [hword]; decide) hts
      exact .inl (eq_nil_of_last hsemicolon hvalue.not_separates hmore₁)
  | @block l r us ss hl _ hr ih =>
      obtain ⟨more, rfl, hmore₁⟩ := skip_token hsemicolon (by rw [hl]; decide) hts
      obtain ⟨m, hbody, rfl⟩ := split_before_last hsemicolon (by rw [hr]; decide) hmore₁
      obtain ⟨ss', before, item, rfl, homits⟩ := ih hbody (r :: tail) (by simpa using hfollows)
      exact .inr ⟨.block ss', l :: before, item, rfl, .block hl homits hr⟩
  | @branch word l r us vs condition closed s hword hl hcondition hr _ ih =>
      obtain ⟨_, rfl, hmore⟩ := skip_condition hsemicolon hword hl hcondition hr hts
      rcases ih hmore tail hfollows with rfl | ⟨s', before, item, rfl, homits⟩
      · exact .inl rfl
      · exact .inr ⟨.branch condition s' none, _, item, by simp,
          .branch hword hl hcondition hr homits⟩
  | @branches word l r other us vs ws condition closed s alternative hword hl hcondition hr
      hconsequent hother halternative ih ihAlternative =>
      obtain ⟨_, rfl, hmore⟩ := skip_condition hsemicolon hword hl hcondition hr hts
      rcases mem_append_split hmore with ⟨m, hvs, rfl⟩ | ⟨m, rfl, hlater⟩
      · rcases ih hvs (other :: ws ++ tail) (by simpa using hfollows) with
          rfl | ⟨s', before, item, rfl, homits⟩
        · exact absurd hother (Follows.noElse hfollows other rfl)
        · exact .inr ⟨.branch condition s' (some alternative), _, item, by simp,
            .consequent hword hl hcondition hr homits hother halternative⟩
      · obtain ⟨_, rfl, hlast⟩ := skip_token hsemicolon (by rw [hother]; decide) hlater
        rcases ihAlternative hlast tail hfollows with rfl | ⟨s', before, item, rfl, homits⟩
        · exact .inl rfl
        · exact .inr ⟨.branch condition s (some s'), _, item, by simp,
            .alternative hword hl hcondition hr hconsequent hother homits⟩
  | @loop word l r us vs condition closed s hword hl hcondition hr _ ih =>
      obtain ⟨_, rfl, hmore⟩ := skip_condition hsemicolon hword hl hcondition hr hts
      rcases ih hmore tail hfollows with rfl | ⟨s', before, item, rfl, homits⟩
      · exact .inl rfl
      · exact .inr ⟨.loop condition s', _, item, by simp, .loop hword hl hcondition hr homits⟩
  | @forLoop word l second r is cs ns us initial condition increment closed s hword hl hinitial
      hcondition hsecond hincrement hr _ ih =>
      obtain ⟨_, rfl, hmore⟩ := skip_clauses hsemicolon hword hl hinitial hcondition hsecond
        hincrement hr hts tail hfollows
      rcases ih hmore tail hfollows with rfl | ⟨s', before, item, rfl, homits⟩
      · exact .inl rfl
      · exact .inr ⟨_, _, item, by simp,
          .forLoop hword hl hinitial hcondition hsecond hincrement hr homits⟩
  | statement _ ih =>
      rcases ih hts tail hfollows with rfl | ⟨s', before, item, rfl, homits⟩
      · exact .inl rfl
      · exact .inr ⟨s', before, item, rfl, .statement homits⟩
  | var_ hword h =>
      obtain ⟨_, rfl, hmore₁⟩ := skip_token hsemicolon (by rw [hword]; decide) hts
      exact .inl (h.eq_nil hsemicolon hmore₁)
  | @function word _ _ hword _ ih =>
      obtain ⟨_, rfl, hmore₁⟩ := skip_token hsemicolon (by rw [hword]; decide) hts
      obtain ⟨d', before, item, rfl, homits⟩ := ih hmore₁ tail hfollows
      exact .inr ⟨.function d', word :: before, item, rfl, .function hword homits⟩
  | @class_ word name l r _ ds hword hname hl _ hr ih =>
      obtain ⟨_, m, rfl, hmethods, rfl⟩ := skip_class hsemicolon hword hname hl hr hts
      obtain ⟨ds', before, item, rfl, homits⟩ := ih hmethods (r :: tail) (by simpa using hfollows)
      exact .inr ⟨.class_ name ds', _, item, rfl, .class_ hword hname hl homits hr⟩
  | noDeclarations => simp at hts
  | @declarations us vs s ss hs hss ih ihRest =>
      rcases mem_append_split hts with ⟨m, hus, rfl⟩ | ⟨m, rfl, hvs⟩
      · rcases ih hus (vs ++ tail) (by simpa using hfollows) with
          rfl | ⟨s', before, item, rfl, homits⟩
        · exact ⟨ss, [], pre, rfl, .here (hus ▸ hs) hss⟩
        · exact ⟨s' :: ss, before, item, rfl, .inside homits hss⟩
      · obtain ⟨ss', before, item, rfl, homits⟩ := ihRest hvs tail hfollows
        exact ⟨s :: ss', us ++ before, item, by simp, .later hs homits⟩
  | noMethods => simp at hts
  | @methods us vs d ds hd hds ih ihRest =>
      rcases mem_append_split hts with ⟨m, hus, rfl⟩ | ⟨m, rfl, hvs⟩
      · obtain ⟨d', before, item, rfl, homits⟩ := ih hus (vs ++ tail) (by simpa using hfollows)
        exact ⟨d' :: ds, before, item, rfl, .method homits hds⟩
      · obtain ⟨ds', before, item, rfl, homits⟩ := ihRest hvs tail hfollows
        exact ⟨d :: ds', us ++ before, item, by simp, .laterMethod hd homits⟩
  | @body name l r open_ close ps us params ss hname hl hparams hr hopen _ hclose ih =>
      obtain ⟨_, m, rfl, hbody, rfl⟩ :=
        skip_body hsemicolon hname hl hparams hr hopen hclose hts
      obtain ⟨ss', before, item, rfl, homits⟩ :=
        ih hbody (close :: tail) (by simpa using hfollows)
      exact ⟨⟨name, params, ss'⟩, _, item, by simp,
        .body hname hl hparams hr hopen homits hclose⟩

end Lox.Parsing
