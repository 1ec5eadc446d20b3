import Lox.Proofs.Recovery.Cursors
import Lox.Proofs.Recovery.Gaps
import Lox.Proofs.Recovery.Losses
import Lox.Session

/-!
What is read of a program that lacks a semicolon.

The tokens before the declaration that lacks it are read as they are in the whole program. The
declaration comes to a fault, and recovery drops more than its tokens: at least the next one, up to
a semicolon or a word that starts a statement. So the rest is read as if nothing were missing only
where there is no rest.
-/

namespace Lox.Parsing

section

variable {stop : Token} {tokens tokens' : List Token} {faults : List Diagnostic}

theorem Omits.starts {before item after : List Token} {p p' : StmtPhrase}
    (h : Omits before item after p p') (hdeclarations : ∀ ss, p ≠ .declarations ss)
    (hmethods : ∀ ds, p ≠ .methods ds) : ∃ t us, before = t :: us ∧ p.Starts t := by
  induction h with
  | here _ _ | later _ _ _ | inside _ _ _ => exact absurd rfl (hdeclarations _)
  | laterMethod _ _ _ | method _ _ _ => exact absurd rfl (hmethods _)
  | statement _ ih => exact ih (by simp) (by simp)
  | function hword _ _ | class_ hword _ _ _ _ _ | branch hword _ _ _ _ _
  | consequent hword _ _ _ _ _ _ _ | alternative hword _ _ _ _ _ _ _ | loop hword _ _ _ _ _
  | forLoop hword _ _ _ _ _ _ _ _ =>
      exact ⟨_, _, rfl, .inl (by rw [hword]; decide)⟩
  | body hname _ _ _ _ _ _ _ => exact ⟨_, _, rfl, hname⟩
  | block hl _ _ _ => exact ⟨_, _, rfl, .inr (.inr hl)⟩

theorem Omits.noElse_append {before item after : List Token} {ss ss' : List (Stmt Unit)}
    (h : Omits before item after (.declarations ss) (.declarations ss')) (htokens : NoElse tokens) :
    NoElse (before ++ tokens) := by
  cases h with
  | here _ _ => exact htokens
  | later hs _ =>
      obtain ⟨t, us, rfl, ht⟩ := hs.starts (by simp) (by simp)
      intro u hu
      cases hu
      exact ht.ne_else
  | inside h _ =>
      obtain ⟨t, us, rfl, ht⟩ := h.starts (by simp) (by simp)
      intro u hu
      cases hu
      exact ht.ne_else

/-- What the rule for a phrase does with the tokens before an item, where the tokens after them are
exchanged for others from which the same declarations are read after these faults. -/
def ShiftedAsStmt (stop : Token) (faults : List Diagnostic) (before tokens tokens' : List Token) :
    StmtPhrase → Prop
  | .declaration _ => ∀ t us, before = t :: us →
      (declaration Reply stop t (us ++ tokens)).Shifts faults
        (declaration Reply stop t (us ++ tokens'))
  | .statement _ _ =>
      (statement Reply stop (before ++ tokens)).Shifts faults
        (statement Reply stop (before ++ tokens'))
  | .declarations _ => Drops stop (before ++ tokens') faults (before ++ tokens)
  | .function _ => ∀ callable, (function Reply stop callable (before ++ tokens)).Shifts faults
      (function Reply stop callable (before ++ tokens'))
  | .methods _ =>
      (methods Reply stop (before ++ tokens)).Shifts faults (methods Reply stop (before ++ tokens'))

section

variable {word name l r second : Token} {ts us before : List Token} {condition : Expr Unit}
  {closed : Bool} {s : Stmt Unit} {ss : List (Stmt Unit)} {ds : List (FunctionDecl Unit)}

theorem shifted_later (hs : ReadsAsStmt ts (.declaration s))
    (ih : ShiftedAsStmt stop faults before tokens tokens' (.declarations ss))
    (h : NoElse (before ++ tokens)) (h' : NoElse (before ++ tokens')) :
    ShiftedAsStmt stop faults (ts ++ before) tokens tokens' (.declarations (s :: ss)) := by
  obtain ⟨t, us, rfl, ht⟩ := hs.starts (by simp) (by simp)
  have hgives := accepts_of_readsAsStmt stop hs t us (before ++ tokens) rfl h
  have hgives' := accepts_of_readsAsStmt stop hs t us (before ++ tokens') rfl h'
  change Drops stop ((t :: us) ++ before ++ tokens') faults ((t :: us) ++ before ++ tokens)
  rw [List.append_assoc, List.append_assoc]
  exact hgives.drops (startsDeclaration.ne_rightBrace ht) hgives' ih

theorem shifted_class (hword : word.kind = .keyword .class_) (hname : name.kind = .identifier)
    (hl : l.kind = .symbol .leftBrace)
    (ih : ShiftedAsStmt stop faults before tokens tokens' (.methods ds)) :
    ShiftedAsStmt stop faults (word :: name :: l :: before) tokens tokens'
      (.declaration (.class_ name ds)) := by
  rintro t us heq
  cases heq
  have hclass : (classDeclaration Reply stop (name :: l :: (before ++ tokens))).Shifts faults
      (classDeclaration Reply stop (name :: l :: (before ++ tokens'))) := by
    rw [classDeclaration, classDeclaration]
    refine (accepts_take hname).andThen_shifts (accepts_take hname) fun _ _ => ?_
    refine (accepts_take hl).andThen_shifts (accepts_take hl) fun _ _ => ?_
    exact ih.map
  rw [declaration, declaration, hword]
  exact hclass.afterToken.recover

theorem shifted_laterMethod {d : FunctionDecl Unit} (hd : ReadsAsStmt ts (.function d))
    (ih : ShiftedAsStmt stop faults before tokens tokens' (.methods ds)) :
    ShiftedAsStmt stop faults (ts ++ before) tokens tokens' (.methods (d :: ds)) := by
  have haccepts := accepts_of_readsAsStmt stop hd .method (before ++ tokens)
  have haccepts' := accepts_of_readsAsStmt stop hd .method (before ++ tokens')
  obtain ⟨t, us, rfl, ht⟩ := hd.starts (by simp) (by simp)
  have hbrace : t.kind ≠ .symbol .rightBrace := by
    rw [show t.kind = .identifier from ht]
    decide
  change (methods Reply stop ((t :: us) ++ before ++ tokens)).Shifts faults
    (methods Reply stop ((t :: us) ++ before ++ tokens'))
  rw [List.append_assoc, List.append_assoc]
  rw [List.cons_append] at haccepts haccepts' ⊢
  rw [List.cons_append, methods, methods, if_neg hbrace, if_neg hbrace]
  exact haccepts.andThen_shifts haccepts' fun _ _ => ih.map

theorem shifted_method {t : Token} {d : FunctionDecl Unit} (ht : t.kind = .identifier)
    (ih : ShiftedAsStmt stop faults (t :: us) tokens tokens' (.function d)) :
    ShiftedAsStmt stop faults (t :: us) tokens tokens' (.methods (d :: ds)) := by
  have hbrace : t.kind ≠ .symbol .rightBrace := by
    rw [ht]
    decide
  have hfunction := ih .method
  change (methods Reply stop (t :: (us ++ tokens))).Shifts faults
    (methods Reply stop (t :: (us ++ tokens')))
  rw [methods, methods, if_neg hbrace, if_neg hbrace]
  exact hfunction.andThen

theorem shifted_body {opening : Token} {names : List Token} (hname : name.kind = .identifier)
    (hl : l.kind = .symbol .leftParen) (hnames : ReadsAsParameters ts names)
    (hr : r.kind = .symbol .rightParen) (hopening : opening.kind = .symbol .leftBrace)
    (ih : ShiftedAsStmt stop faults before tokens tokens' (.declarations ss)) :
    ShiftedAsStmt stop faults (name :: l :: (ts ++ r :: opening :: before)) tokens tokens'
      (.function ⟨name, names, ss⟩) := by
  intro callable
  have hlist (rest : List Token) : name :: l :: (ts ++ r :: opening :: before) ++ rest =
      name :: l :: (ts ++ r :: opening :: (before ++ rest)) := by simp
  rw [hlist, hlist, function, function]
  refine (accepts_take hname).andThen_shifts (accepts_take hname) fun _ _ => ?_
  refine (accepts_take hl).andThen_shifts (accepts_take hl) fun _ _ => ?_
  refine (parameters_accepts hnames hr).andThen_shifts (parameters_accepts hnames hr)
    fun _ _ => ?_
  refine (accepts_take hr).andThen_shifts (accepts_take hr) fun _ _ => ?_
  refine (accepts_take hopening).andThen_shifts (accepts_take hopening) fun _ _ => ?_
  exact ih.block.map

theorem shifted_branch {closed' : Bool} {other : Option (Stmt Unit)}
    (hword : word.kind = .keyword .if_) (hl : l.kind = .symbol .leftParen)
    (hcondition : ReadsAs ts (.expression condition)) (hr : r.kind = .symbol .rightParen)
    (ih : ShiftedAsStmt stop faults before tokens tokens' (.statement closed s)) :
    ShiftedAsStmt stop faults (word :: l :: (ts ++ r :: before)) tokens tokens'
      (.statement closed' (.branch condition s other)) := by
  have hlist (rest : List Token) : word :: l :: (ts ++ r :: before) ++ rest =
      word :: l :: (ts ++ r :: (before ++ rest)) := by simp
  rw [ShiftedAsStmt, hlist, hlist, Reply.Shifts, val_statement_if hl hcondition hr hword,
    val_statement_if hl hcondition hr hword]
  exact ih.andThen

theorem shifted_alternative {other : Token} {consequent : Stmt Unit}
    (hword : word.kind = .keyword .if_) (hl : l.kind = .symbol .leftParen)
    (hcondition : ReadsAs ts (.expression condition)) (hr : r.kind = .symbol .rightParen)
    (hconsequent : ReadsAsStmt us (.statement true consequent))
    (hother : other.kind = .keyword .else_)
    (ih : ShiftedAsStmt stop faults before tokens tokens' (.statement closed s)) :
    ShiftedAsStmt stop faults (word :: l :: (ts ++ r :: (us ++ other :: before))) tokens tokens'
      (.statement closed (.branch condition consequent (some s))) := by
  have halternative : (alternative Reply stop (other :: (before ++ tokens))).Shifts faults
      (alternative Reply stop (other :: (before ++ tokens'))) := by
    rw [alternative, alternative, if_pos hother, if_pos hother]
    exact ih.map.afterToken
  have haccepts (rest : List Token) :=
    accepts_of_readsAsStmt stop hconsequent (other :: rest) (by simp)
  have hlist (rest : List Token) : word :: l :: (ts ++ r :: (us ++ other :: before)) ++ rest =
      word :: l :: (ts ++ r :: (us ++ other :: (before ++ rest))) := by simp
  rw [ShiftedAsStmt, hlist, hlist, Reply.Shifts, val_statement_if hl hcondition hr hword,
    val_statement_if hl hcondition hr hword]
  exact (haccepts _).andThen_shifts (haccepts _) fun _ _ => halternative.map

theorem shifted_loop (hword : word.kind = .keyword .while_) (hl : l.kind = .symbol .leftParen)
    (hcondition : ReadsAs ts (.expression condition)) (hr : r.kind = .symbol .rightParen)
    (ih : ShiftedAsStmt stop faults before tokens tokens' (.statement closed s)) :
    ShiftedAsStmt stop faults (word :: l :: (ts ++ r :: before)) tokens tokens'
      (.statement closed (.loop condition s)) := by
  have hlist (rest : List Token) : word :: l :: (ts ++ r :: before) ++ rest =
      word :: l :: (ts ++ r :: (before ++ rest)) := by simp
  rw [ShiftedAsStmt, hlist, hlist, Reply.Shifts, val_statement_while hl hcondition hr hword,
    val_statement_while hl hcondition hr hword]
  exact ih.map

theorem shifted_forLoop {is cs ns : List Token} {initial : Option (Stmt Unit)}
    {clause increment : Option (Expr Unit)} (hword : word.kind = .keyword .for_)
    (hl : l.kind = .symbol .leftParen) (hinitial : ReadsAsInitial is initial)
    (hclause : ReadsAsOption cs clause) (hsecond : second.kind = .symbol .semicolon)
    (hincrement : ReadsAsOption ns increment) (hr : r.kind = .symbol .rightParen)
    (ih : ShiftedAsStmt stop faults before tokens tokens' (.statement closed s)) :
    ShiftedAsStmt stop faults (word :: l :: (is ++ (cs ++ second :: (ns ++ r :: before)))) tokens
      tokens' (.statement closed (forLoop initial clause increment s)) := by
  have hlist (rest : List Token) :
      word :: l :: (is ++ (cs ++ second :: (ns ++ r :: before))) ++ rest =
        word :: l :: (is ++ (cs ++ second :: (ns ++ r :: (before ++ rest)))) := by simp
  rw [ShiftedAsStmt, hlist, hlist, Reply.Shifts,
    val_statement_for hword hl hinitial hclause hsecond hincrement hr,
    val_statement_for hword hl hinitial hclause hsecond hincrement hr]
  exact ih.map

end

theorem shifted_of_omits {before item after : List Token} {p p' : StmtPhrase}
    (h : Omits before item after p p') (hdrops : Drops stop tokens' faults tokens)
    (htokens : NoElse tokens) (htokens' : NoElse tokens') :
    ShiftedAsStmt stop faults before tokens tokens' p := by
  induction h with
  | here _ _ => exact hdrops
  | later hs h ih => exact shifted_later hs ih (h.noElse_append htokens) (h.noElse_append htokens')
  | inside h _ ih =>
      obtain ⟨t, us, rfl, ht⟩ := h.starts (by simp) (by simp)
      exact (ih t us rfl).drops (startsDeclaration.ne_rightBrace ht)
  | @statement before item after closed s s' h ih =>
      rintro t us rfl
      have hreads : ReadsAsStmt (t :: (us ++ (item ++ after))) (.statement closed s) := h.readsAs.1
      rw [declaration_eq_of_readsAsStmt hreads, declaration_eq_of_readsAsStmt hreads]
      exact ih.recover
  | function hword _ ih =>
      rintro t us heq
      cases heq
      rw [declaration, declaration, hword]
      exact (Reply.Shifts.map (ih .function)).afterToken.recover
  | class_ hword hname hl _ _ ih => exact shifted_class hword hname hl ih
  | laterMethod hd _ ih => exact shifted_laterMethod hd ih
  | method h _ ih =>
      obtain ⟨t, us, rfl, ht⟩ := h.starts (by simp) (by simp)
      exact shifted_method ht ih
  | body hname hl hparams hr hopen _ _ ih => exact shifted_body hname hl hparams hr hopen ih
  | @block l r before _ _ ss ss' hl _ _ ih =>
      change (statement Reply stop (l :: (before ++ tokens))).Shifts faults
        (statement Reply stop (l :: (before ++ tokens')))
      rw [statement, statement, hl]
      exact ih.block.map.afterToken
  | branch hword hl hcondition hr _ ih | consequent hword hl hcondition hr _ _ _ ih =>
      exact shifted_branch hword hl hcondition hr ih
  | alternative hword hl hcondition hr hconsequent hother _ ih =>
      exact shifted_alternative hword hl hcondition hr hconsequent hother ih
  | loop hword hl hcondition hr _ ih => exact shifted_loop hword hl hcondition hr ih
  | forLoop hword hl hinitial hcondition hsecond hincrement hr _ ih =>
      exact shifted_forLoop hword hl hinitial hcondition hsecond hincrement hr ih

/-- Where the item lacks its last semicolon. -/
theorem exists_drops_of_omits {before item after : List Token} {semicolon : Token}
    {ss ss' : List (Stmt Unit)}
    (h : Omits before (item ++ [semicolon]) after (.declarations ss) (.declarations ss'))
    (hsemicolon : semicolon.kind = .symbol .semicolon) (hafter : Follows after) (stop : Token) :
    ∃ fault faults next, SyntaxFault.OfGap fault ∧ Settles (synchronize after) faults next ∧
      Drops stop (before ++ (item ++ after)) (.syntactic (here stop after) fault :: faults)
        (before ++ next) := by
  obtain ⟨s, hitem⟩ := h.exists_item
  obtain ⟨fault, hfault, hgap⟩ := refused_of_readsAsStmt stop hitem hsemicolon rfl hafter
  obtain ⟨faults, next, hsettles⟩ := exists_settles (synchronize after)
  have hnoElse : NoElse (item ++ after) := by
    obtain ⟨t, more, rfl, ht⟩ := hitem.exists_cons hsemicolon
    intro u hu
    cases hu
    exact ht.ne_else
  exact ⟨fault, faults, next, hfault, hsettles,
    shifted_of_omits h (hgap.trans hsettles.drops) hsettles.noElse hnoElse⟩

end

/-- The declarations of a program that are read from others, after these faults. -/
theorem program_of_drops {tokens rest : List Token} {faults : List Diagnostic}
    (h : Drops (stop tokens) (contents tokens) faults rest) :
    program tokens = ⟨(declarationsAfter (stop tokens) #[] #[] rest).value,
      faults ++ (declarationsAfter (stop tokens) #[] #[] rest).reports⟩ := by
  rw [program, h.declarations, declarationsAfter_eq]
  simp

/-- A program that lacks one semicolon, where a closing brace, the end, or a word that starts a
statement follows. The innermost declaration that the semicolon is in is lost, with a fault at the
next token. So is what recovery drops after it, and with it each `else` that comes then. The others
are read as in the whole program, without another fault, only where the end follows. -/
theorem program_of_gap {before after : List Token} {semicolon : Token}
    (hbefore : ∀ t ∈ before, ¬t.isEnd) (hsemicolon : semicolon.kind = .symbol .semicolon)
    (hreports : (program (before ++ semicolon :: after)).reports = [])
    (hfollows : Follows (contents after)) :
    ∃ first item ss fault faults next,
      before = first ++ item ∧
      Omits first (item ++ [semicolon]) (contents after)
        (.declarations (program (before ++ semicolon :: after)).value) (.declarations ss) ∧
      SyntaxFault.OfGap fault ∧ Settles (synchronize (contents after)) faults next ∧
      program (before ++ after) =
        ⟨(declarationsAfter (stop after) #[] #[] (first ++ next)).value,
          .syntactic (here (stop after) (contents after)) fault :: (faults ++
            (declarationsAfter (stop after) #[] #[] (first ++ next)).reports)⟩ ∧
      (program (before ++ after) =
        ⟨ss, [.syntactic (here (stop after) (contents after)) fault]⟩ ↔ contents after = []) := by
  have hends : ¬semicolon.isEnd := by
    rw [Token.isEnd, hsemicolon]
    decide
  have hreads := program_eq_iff.mp
    (show program (before ++ semicolon :: after) = ⟨_, []⟩ by rw [← hreports])
  rw [(contents_append_of_not_isEnd hbefore _).1, (contents_cons_of_not_isEnd hends after).1]
    at hreads
  obtain ⟨hcontents, hstop⟩ := contents_append_of_not_isEnd hbefore after
  generalize (program (before ++ semicolon :: after)).value = whole at hreads ⊢
  generalize contents after = rest at *
  obtain ⟨ss, first, item, rfl, homits⟩ :=
    hreads.splitsAt hsemicolon rfl [] (by rwa [List.append_nil])
  obtain ⟨fault, faults, next, hfault, hsettles, hdrops⟩ :=
    exists_drops_of_omits homits hsemicolon hfollows (stop after)
  rw [← List.append_assoc, ← hcontents, ← hstop] at hdrops
  have hprogram := program_of_drops hdrops
  rw [hstop, List.cons_append] at hprogram
  refine ⟨first, item, ss, fault, faults, next, rfl, homits, hfault, hsettles, hprogram, ?_, ?_⟩
  · intro h
    -- Without another report the same declarations are read whether or not tokens are dropped.
    obtain ⟨hvalue, hmore⟩ := Parsed.mk.inj (hprogram.symm.trans h)
    obtain ⟨rfl, hnone⟩ := List.append_eq_nil_iff.mp (List.cons.inj hmore).2
    obtain rfl : next = synchronize rest := hsettles.eq_of_eq_nil rfl
    obtain ⟨-, ss', hvalue', hreads'⟩ := declarationsAfter_sound _ _ _ _ hnone
    obtain rfl : ss' = ss := hvalue'.symm.trans hvalue
    exact eq_nil_of_readsAs hfollows homits.readsAs.2 hreads'
  · rintro rfl
    rw [synchronize] at hsettles
    cases hsettles
    have haccepts := (accepts_of_readsAsStmt (stop after) homits.readsAs.2).2 #[] #[] []
      (by simp [NoElse])
    rw [List.append_nil] at haccepts
    rw [hprogram, haccepts, declarationsAfter]
    simp

/-- Between two statements. -/
theorem program_of_gap_of_prints :
    ∃ first item ss fault,
      [⟨.keyword .print_, "print", 1⟩, ⟨.keyword .true_, "true", 1⟩] = first ++ item ∧
      Omits first (item ++ [⟨.symbol .semicolon, ";", 1⟩])
        [⟨.keyword .print_, "print", 1⟩, ⟨.keyword .false_, "false", 1⟩,
          ⟨.symbol .semicolon, ";", 1⟩]
        (.declarations [.print (.literal (.boolean true)), .print (.literal (.boolean false))])
        (.declarations ss) ∧
      SyntaxFault.OfGap fault ∧
      program [⟨.keyword .print_, "print", 1⟩, ⟨.keyword .true_, "true", 1⟩,
        ⟨.keyword .print_, "print", 1⟩, ⟨.keyword .false_, "false", 1⟩,
        ⟨.symbol .semicolon, ";", 1⟩] ≠
          ⟨ss, [.syntactic ⟨.keyword .print_, "print", 1⟩ fault]⟩ := by
  let word : Token := ⟨.keyword .print_, "print", 1⟩
  let yes : Token := ⟨.keyword .true_, "true", 1⟩
  let no : Token := ⟨.keyword .false_, "false", 1⟩
  let semicolon : Token := ⟨.symbol .semicolon, ";", 1⟩
  have hwhole : program ([word, yes] ++ semicolon :: [word, no, semicolon]) =
      ⟨[.print (.literal (.boolean true)), .print (.literal (.boolean false))], []⟩ := by cbv
  have hfollows : Follows (contents [word, no, semicolon]) := by
    rintro t ⟨⟩
    exact .inr rfl
  obtain ⟨first, item, ss, fault, faults, next, hitem, homits, hfault, -, -, hiff⟩ :=
    program_of_gap (by decide) rfl (congrArg Parsed.reports hwhole) hfollows
  rw [hwhole] at homits
  exact ⟨first, item, ss, fault, hitem, homits, hfault, fun h => by cases hiff.mp h⟩

end Lox.Parsing

namespace Lox

open Parsing

/-- The statement after the gap is lost, and a block with a gap before its brace is not closed. -/
theorem readProgram_of_gap :
    readProgram "print true; print false;" =
      ⟨[.print (.literal (.boolean true)), .print (.literal (.boolean false))], []⟩ ∧
    readProgram "print true print false;" =
      ⟨[], [.syntactic ⟨.keyword .print_, "print", 1⟩ (.missing .semicolon .afterValue)]⟩ ∧
    readProgram "\x7b print true; \x7d print false;" =
      ⟨[.block [.print (.literal (.boolean true))], .print (.literal (.boolean false))], []⟩ ∧
    readProgram "\x7b print true \x7d print false;" =
      ⟨[], [.syntactic ⟨.symbol .rightBrace, "\x7d", 1⟩ (.missing .semicolon .afterValue),
        .syntactic (.endOfInput 1) (.missing .rightBrace .afterBlock)]⟩ := by
  refine ⟨?_, ?_, ?_, ?_⟩ <;> cbv

end Lox
