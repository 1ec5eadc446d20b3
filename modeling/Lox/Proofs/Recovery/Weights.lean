import Lox.Proofs.Recovery.Omissions
import Mathlib.Algebra.Ring.Int.Defs

/-!
What a program tells of the tokens it is read from.

Tokens are given weights in such a way that the weight of a text can be told from its tree. Words
that start a statement, names and literals leave nodes in the tree, and braces come in pairs. But a
`for` leaves a block in the tree that has no braces and a statement that has no semicolon, and
without a condition it leaves a literal, to make up for two semicolons that come one after the
other.
-/

namespace Lox

variable {Label : Type}

namespace Parsing

/-- The kinds of token that are names and values in expressions. -/
def isLeaf (k : Kind) : Bool :=
  (literal? k).isSome || k = .identifier || k = .keyword .this_

/-- What sorts of tokens weigh. -/
structure Weights where
  leaf : Int
  word : Int
  semicolon : Int
  closing : Int

/-- The weight of a token by its kind. A pair of braces and a semicolon weigh nothing together, and
a `for` is lighter than other words by two semicolons. -/
def Weights.of (w : Weights) : Kind → Int
  | .symbol .semicolon => w.semicolon
  | .symbol .leftBrace => -(w.semicolon + w.closing)
  | .symbol .rightBrace => w.closing
  | .keyword .for_ => w.word - 2 * w.semicolon
  | k => if startsStatement k then w.word else if isLeaf k then w.leaf else 0

end Parsing

open Parsing (Weights)

/-- The number of leaves of an expression. -/
def Expr.leaves (e : Expr Label) : Nat := e.yield.countP fun t => Parsing.isLeaf t.kind

def Expr.leavesOption : Option (Expr Label) → Nat
  | none => 0
  | some e => e.leaves

mutual

/-- The weight of the text of a statement. -/
def Stmt.weight (w : Weights) : Stmt Label → Int
  | .expression e => w.leaf * e.leaves + w.semicolon
  | .print e => w.word + w.leaf * e.leaves + w.semicolon
  | .var _ initial => w.word + w.leaf + w.leaf * Expr.leavesOption initial + w.semicolon
  | .block body => Stmt.weightAll w body - w.semicolon
  | .branch condition consequent none => w.word + w.leaf * condition.leaves + consequent.weight w
  | .branch condition consequent (some alternative) =>
      w.word + w.leaf * condition.leaves + consequent.weight w + alternative.weight w
  | .loop condition body => w.word + w.leaf * condition.leaves + body.weight w
  | .function declaration => w.word + declaration.weight w
  | .ret _ value => w.word + w.leaf * Expr.leavesOption value + w.semicolon
  | .class_ _ methods => w.word + w.leaf + FunctionDecl.weightAll w methods - w.semicolon

def Stmt.weightAll (w : Weights) : List (Stmt Label) → Int
  | [] => 0
  | s :: ss => s.weight w + Stmt.weightAll w ss

def FunctionDecl.weight (w : Weights) : FunctionDecl Label → Int
  | ⟨_, params, body⟩ => w.leaf + w.leaf * params.length + Stmt.weightAll w body - w.semicolon

def FunctionDecl.weightAll (w : Weights) : List (FunctionDecl Label) → Int
  | [] => 0
  | d :: ds => d.weight w + FunctionDecl.weightAll w ds

end

namespace Parsing

variable {w : Weights} {t : Token} {ts us rest : List Token}

def StmtPhrase.weight (w : Weights) : StmtPhrase → Int
  | .declaration s | .statement _ s => s.weight w
  | .declarations ss => Stmt.weightAll w ss
  | .function d => d.weight w
  | .methods ds => FunctionDecl.weightAll w ds

/-- The number of semicolons that come directly after another. -/
def emptyClauses : List Token → Nat
  | [] => 0
  | t :: rest =>
      emptyClauses rest +
        if t.kind = .symbol .semicolon ∧ rest.head?.map Token.kind = some (.symbol .semicolon)
        then 1 else 0

theorem emptyClauses_cons (h : t.kind ≠ .symbol .semicolon) :
    emptyClauses (t :: rest) = emptyClauses rest := by
  rw [emptyClauses, if_neg fun hboth => h hboth.1, Nat.add_zero]

theorem emptyClauses_cons_of_head (h : ∀ u ∈ rest.head?, u.kind ≠ .symbol .semicolon) :
    emptyClauses (t :: rest) = emptyClauses rest := by
  rw [emptyClauses, if_neg, Nat.add_zero]
  rintro ⟨-, hhead⟩
  obtain ⟨u, hu, hkind⟩ := Option.map_eq_some_iff.mp hhead
  exact h u hu hkind

theorem emptyClauses_cons_cons (t u : Token) (rest : List Token) :
    emptyClauses (t :: u :: rest) = emptyClauses (u :: rest) + emptyClauses [t, u] := by
  simp [emptyClauses]

theorem emptyClauses_append (h : ∀ u ∈ us.head?, u.kind ≠ .symbol .semicolon) :
    emptyClauses (ts ++ us) = emptyClauses ts + emptyClauses us := by
  induction ts with
  | nil => simp [emptyClauses]
  | cons t ts ih =>
      cases ts with
      | nil =>
          rw [List.singleton_append, emptyClauses_cons_of_head h]
          simp [emptyClauses]
      | cons u ts =>
          have hleft := emptyClauses_cons_cons t u ts
          rw [List.cons_append, List.cons_append, emptyClauses_cons_cons, ← List.cons_append, ih]
          omega

/-- The weight of the tokens, where each semicolon directly after another weighs as much as a leaf
besides. -/
def Weights.total (w : Weights) (ts : List Token) : Int :=
  (ts.map fun t => w.of t.kind).sum + w.leaf * emptyClauses ts

namespace Weights

theorem of_word {k : Kind} (h : startsStatement k) (hfor : k ≠ .keyword .for_) :
    w.of k = w.word := by
  cases k with
  | keyword k => cases k <;> simp_all [Weights.of, startsStatement]
  | _ => cases h

theorem of_inExpressions {k : Kind} (h : ¬separates k) :
    w.of k = if isLeaf k then w.leaf else 0 := by
  cases k with
  | symbol s => cases s <;> simp_all [Weights.of, separates, startsStatement, isLeaf, literal?]
  | keyword k => cases k <;> simp_all [Weights.of, separates, startsStatement, isLeaf, literal?]
  | _ => simp [Weights.of, startsStatement]

theorem total_nil : w.total [] = 0 := by simp [total, emptyClauses]

theorem total_cons (ht : t.kind ≠ .symbol .semicolon) :
    w.total (t :: ts) = w.of t.kind + w.total ts := by
  rw [total, total, emptyClauses_cons ht, List.map_cons, List.sum_cons, Int.add_assoc]

theorem total_semicolon (ht : t.kind = .symbol .semicolon)
    (h : ∀ u ∈ ts.head?, u.kind ≠ .symbol .semicolon) :
    w.total (t :: ts) = w.semicolon + w.total ts := by
  rw [total, total, emptyClauses_cons_of_head h, List.map_cons, List.sum_cons, ht, Int.add_assoc]
  rfl

theorem total_append (h : ∀ u ∈ us.head?, u.kind ≠ .symbol .semicolon) :
    w.total (ts ++ us) = w.total ts + w.total us := by
  rw [total, total, total, emptyClauses_append h, List.map_append, List.sum_append,
    Int.natCast_add, Int.mul_add]
  omega

/-- Only the leaves weigh something among tokens of expressions. -/
theorem total_append_of_not_separates (h : ∀ t ∈ ts, ¬separates t.kind) :
    w.total (ts ++ us) = w.leaf * ts.countP (fun t => isLeaf t.kind) + w.total us := by
  induction ts with
  | nil => simp
  | cons t ts ih =>
      obtain ⟨ht, hts⟩ := List.forall_mem_cons.mp h
      have hne : t.kind ≠ .symbol .semicolon := by
        intro hkind
        rw [hkind] at ht
        exact ht (by decide)
      rw [List.cons_append, total_cons hne, ih hts, of_inExpressions ht, List.countP_cons,
        Int.natCast_add, Int.mul_add]
      split
      · simp only [Int.natCast_one, Int.mul_one]
        omega
      · simp

theorem total_word {k : Keyword} (ht : t.kind = .keyword k)
    (hk : startsStatement (.keyword k)) (hfor : k ≠ .for_) :
    w.total (t :: ts) = w.word + w.total ts := by
  rw [total_cons (by rw [ht]; simp), of_word (ht ▸ hk) (by rw [ht]; simpa using hfor)]

theorem total_leaf (ht : t.kind = .identifier) : w.total (t :: ts) = w.leaf + w.total ts := by
  rw [total_cons (by rw [ht]; simp), ht]
  rfl

theorem total_cons_of_eq_zero (ht : t.kind ≠ .symbol .semicolon) (hzero : w.of t.kind = 0) :
    w.total (t :: ts) = w.total ts := by
  rw [total_cons ht, hzero, Int.zero_add]

theorem total_symbol {s : Symbol} (ht : t.kind = .symbol s)
    (hs : s ∉ [Symbol.semicolon, .leftBrace, .rightBrace]) :
    w.total (t :: ts) = w.total ts := by
  have hparts : s ≠ .semicolon ∧ s ≠ .leftBrace ∧ s ≠ .rightBrace := by simpa using hs
  refine total_cons_of_eq_zero (by simp [ht, hparts]) ?_
  rw [ht]
  cases s <;> simp_all [Weights.of, startsStatement, isLeaf, literal?]

theorem total_else (ht : t.kind = .keyword .else_) : w.total (t :: ts) = w.total ts :=
  total_cons_of_eq_zero (by rw [ht]; simp)
    (by rw [ht]; simp [Weights.of, startsStatement, isLeaf, literal?])

theorem total_last (ht : t.kind = .symbol .semicolon) : w.total [t] = w.semicolon := by
  rw [total_semicolon ht (by simp), total_nil, Int.add_zero]

theorem total_enclosed {l r : Token} (hl : l.kind = .symbol .leftBrace)
    (hr : r.kind = .symbol .rightBrace) :
    w.total (l :: (ts ++ [r])) = w.total ts - w.semicolon := by
  rw [total_cons (by rw [hl]; decide), total_append (by simp [hr]),
    total_cons (by rw [hr]; decide), total_nil, hl, hr]
  simp only [Weights.of]
  omega

theorem total_expression {e : Expr Unit} (h : ReadsAs ts (.expression e)) :
    w.total (ts ++ us) = w.leaf * e.leaves + w.total us := by
  have hcount : e.leaves = ts.countP fun t => isLeaf t.kind := by
    have hkinds := congrArg (List.countP fun m => isLeaf m.1) (h.yield_eq List.nil_suffix)
    rwa [List.countP_map, List.countP_map] at hkinds
  rw [total_append_of_not_separates h.not_separates, hcount]

theorem total_option {e : Option (Expr Unit)} (h : ReadsAsOption ts e) :
    w.total (ts ++ us) = w.leaf * Expr.leavesOption e + w.total us := by
  cases e with
  | none =>
      cases h
      simp [Expr.leavesOption]
  | some e => exact total_expression h

theorem total_condition {l r : Token} {k : Keyword} {e : Expr Unit} (ht : t.kind = .keyword k)
    (hk : startsStatement (.keyword k)) (hfor : k ≠ .for_) (hl : l.kind = .symbol .leftParen)
    (he : ReadsAs ts (.expression e)) (hr : r.kind = .symbol .rightParen) :
    w.total (t :: l :: (ts ++ r :: us)) = w.word + w.leaf * e.leaves + w.total us := by
  rw [total_word ht hk hfor, total_symbol hl (by decide), total_expression he,
    total_symbol hr (by decide), Int.add_assoc]

theorem total_variable {word : Token} {s : Stmt Unit} (hword : word.kind = .keyword .var_)
    (h : ReadsAsVariable ts s) (rest : List Token) :
    ∃ semicolon : Token, semicolon.kind = .symbol .semicolon ∧
      w.total (word :: (ts ++ rest)) = s.weight w - w.semicolon + w.total (semicolon :: rest) := by
  cases h with
  | @bare name semicolon hname hsemicolon =>
      refine ⟨semicolon, hsemicolon, ?_⟩
      rw [total_word hword (by decide) (by decide), List.cons_append, total_leaf hname,
        List.singleton_append]
      simp only [Stmt.weight, Expr.leavesOption]
      omega
  | @initial name equals semicolon us e hname hequals he hsemicolon =>
      refine ⟨semicolon, hsemicolon, ?_⟩
      rw [total_word hword (by decide) (by decide), List.cons_append, total_leaf hname,
        List.cons_append, total_symbol hequals (by decide), List.append_assoc,
        total_expression he, List.singleton_append]
      simp only [Stmt.weight, Expr.leavesOption]
      omega

/-- What the initial statement of a `for` adds to the weight of the loop. -/
def ofInitial (w : Weights) : Option (Stmt Unit) → Int
  | none => 0
  | some s => s.weight w - w.semicolon

theorem total_initial {initial : Option (Stmt Unit)} (h : ReadsAsInitial ts initial)
    (rest : List Token) : ∃ semicolon : Token, semicolon.kind = .symbol .semicolon ∧
      w.total (ts ++ rest) = w.ofInitial initial + w.total (semicolon :: rest) := by
  cases h with
  | @none semicolon hsemicolon => exact ⟨semicolon, hsemicolon, by simp [ofInitial]⟩
  | var_ hword h => exact total_variable hword h rest
  | @expression semicolon us e he hsemicolon =>
      refine ⟨semicolon, hsemicolon, ?_⟩
      rw [List.append_assoc, List.singleton_append, total_expression he]
      simp only [ofInitial, Stmt.weight]
      omega

/-- Two semicolons with nothing between them weigh as much as with the literal that an absent
condition stands for. -/
theorem total_clause {first second : Token} {condition : Option (Expr Unit)}
    (hfirst : first.kind = .symbol .semicolon) (h : ReadsAsOption ts condition)
    (hsecond : second.kind = .symbol .semicolon)
    (hrest : ∀ u ∈ rest.head?, u.kind ≠ .symbol .semicolon) :
    w.total (first :: (ts ++ second :: rest)) =
      2 * w.semicolon + w.leaf * (condition.getD (.literal (.boolean true))).leaves +
        w.total rest := by
  cases condition with
  | none =>
      cases h
      have hpair : emptyClauses (first :: second :: rest) = emptyClauses (second :: rest) + 1 := by
        rw [emptyClauses, if_pos ⟨hfirst, by simp [hsecond]⟩]
      have hleaf : (Expr.literal (.boolean true) : Expr Unit).leaves = 1 := by decide
      have hsum : w.total (first :: second :: rest) =
          w.semicolon + w.leaf + w.total (second :: rest) := by
        rw [total, total, hpair, List.map_cons, List.sum_cons, hfirst, Int.natCast_add,
          Int.mul_add]
        simp only [Weights.of, Int.natCast_one, Int.mul_one]
        omega
      rw [List.nil_append, hsum, total_semicolon hsecond hrest, Option.getD_none, hleaf]
      omega
  | some e =>
      obtain ⟨t, us, rfl, ht⟩ := ReadsAs.starts h (by simp)
      have hhead : ∀ u ∈ (t :: us ++ second :: rest).head?, u.kind ≠ .symbol .semicolon := by
        intro u hu
        cases hu
        exact startsDeclaration.ne_semicolon (.inr (.inl ht))
      rw [total_semicolon hfirst hhead, total_expression h, total_semicolon hsecond hrest,
        Option.getD_some]
      omega

theorem weight_forLoop (initial : Option (Stmt Unit)) (condition increment : Option (Expr Unit))
    (body : Stmt Unit) :
    (forLoop initial condition increment body).weight w =
      w.word + w.ofInitial initial +
        w.leaf * (condition.getD (.literal (.boolean true))).leaves +
        w.leaf * Expr.leavesOption increment + body.weight w := by
  cases initial <;> cases increment <;>
    simp only [forLoop, repeated, Stmt.weight, Stmt.weightAll, ofInitial, Expr.leavesOption] <;>
    omega

theorem total_for {word l second r : Token} {is cs ns : List Token}
    {initial : Option (Stmt Unit)} {condition increment : Option (Expr Unit)}
    (hword : word.kind = .keyword .for_) (hl : l.kind = .symbol .leftParen)
    (hinitial : ReadsAsInitial is initial) (hcondition : ReadsAsOption cs condition)
    (hsecond : second.kind = .symbol .semicolon) (hincrement : ReadsAsOption ns increment)
    (hr : r.kind = .symbol .rightParen) (body : Stmt Unit) (hus : w.total us = body.weight w) :
    w.total (word :: l :: (is ++ (cs ++ second :: (ns ++ r :: us)))) =
      (forLoop initial condition increment body).weight w := by
  have hhead : ∀ u ∈ (ns ++ r :: us).head?, u.kind ≠ .symbol .semicolon := by
    intro u hu
    cases increment with
    | none =>
        cases hincrement
        cases hu
        rw [hr]
        decide
    | some e =>
        obtain ⟨t, vs, rfl, ht⟩ := ReadsAs.starts hincrement (by simp)
        cases hu
        exact startsDeclaration.ne_semicolon (.inr (.inl ht))
  obtain ⟨first, hfirst, hclauses⟩ :=
    total_initial (w := w) hinitial (cs ++ second :: (ns ++ r :: us))
  have hweight : w.of word.kind = w.word - 2 * w.semicolon := by rw [hword]; rfl
  rw [total_cons (by rw [hword]; decide), hweight, total_symbol hl (by decide), hclauses,
    total_clause hfirst hcondition hsecond hhead, total_option hincrement,
    total_symbol hr (by decide), hus, weight_forLoop]
  omega

end Weights

theorem StmtPhrase.Starts.ne_semicolon {p : StmtPhrase} (h : p.Starts t)
    (hdeclarations : ∀ ss, p ≠ .declarations ss) (hmethods : ∀ ds, p ≠ .methods ds) :
    t.kind ≠ .symbol .semicolon := by
  cases p with
  | declaration s | statement closed s => exact startsDeclaration.ne_semicolon h
  | declarations ss => exact absurd rfl (hdeclarations ss)
  | function d =>
      rw [show t.kind = .identifier from h]
      decide
  | methods ds => exact absurd rfl (hmethods ds)

theorem ReadsAsStmt.head_ne_semicolon {p : StmtPhrase} (h : ReadsAsStmt ts p) :
    ∀ t ∈ ts.head?, t.kind ≠ .symbol .semicolon := by
  have hstarts {q : StmtPhrase} {us vs : List Token} (hq : ReadsAsStmt us q)
      (hdeclarations : ∀ ss, q ≠ .declarations ss) (hmethods : ∀ ds, q ≠ .methods ds) :
      ∀ t ∈ (us ++ vs).head?, t.kind ≠ .symbol .semicolon := by
    obtain ⟨t, us, rfl, ht⟩ := hq.starts hdeclarations hmethods
    intro u hu
    cases hu
    exact ht.ne_semicolon hdeclarations hmethods
  have hwhole : (∀ ss, p ≠ .declarations ss) → (∀ ds, p ≠ .methods ds) →
      ∀ t ∈ (ts ++ []).head?, t.kind ≠ .symbol .semicolon := hstarts h
  rw [List.append_nil] at hwhole
  cases p with
  | declarations ss =>
      cases h with
      | noDeclarations => simp
      | declarations hs _ => exact hstarts hs (by simp) (by simp)
  | methods ds =>
      cases h with
      | noMethods => simp
      | methods hd _ => exact hstarts hd (by simp) (by simp)
  | _ => exact hwhole (by simp) (by simp)

theorem countP_isLeaf_of_names {names : List Token} (h : ReadsAsNames ts names) :
    ts.countP (fun t => isLeaf t.kind) = names.length := by
  induction h with
  | last hname =>
      rw [List.countP_singleton, hname]
      rfl
  | more hname hcomma _ ih =>
      rw [List.countP_cons, List.countP_cons, ih, hname, hcomma]
      rfl

/-- What stands for a phrase weighs as much as the phrase tells. -/
theorem ReadsAsStmt.total_eq {p : StmtPhrase} (h : ReadsAsStmt ts p) (w : Weights) :
    w.total ts = p.weight w := by
  induction h with
  | expression he hsemicolon =>
      rw [Weights.total_expression he, Weights.total_last hsemicolon]
      rfl
  | print hword he hsemicolon =>
      rw [Weights.total_word hword (by decide) (by decide), Weights.total_expression he,
        Weights.total_last hsemicolon]
      simp only [StmtPhrase.weight, Stmt.weight]
      omega
  | ret hword hvalue hsemicolon =>
      rw [Weights.total_word hword (by decide) (by decide), Weights.total_option hvalue,
        Weights.total_last hsemicolon]
      simp only [StmtPhrase.weight, Stmt.weight]
      omega
  | block hl _ hr ih =>
      rw [Weights.total_enclosed hl hr, ih]
      rfl
  | branch hword hl hcondition hr _ ih =>
      rw [Weights.total_condition hword (by decide) (by decide) hl hcondition hr, ih]
      rfl
  | branches hword hl hcondition hr _ hother _ ih ihAlternative =>
      rw [Weights.total_condition hword (by decide) (by decide) hl hcondition hr,
        Weights.total_append (by simp [hother]), Weights.total_else hother, ih, ihAlternative]
      simp only [StmtPhrase.weight, Stmt.weight]
      omega
  | loop hword hl hcondition hr _ ih =>
      rw [Weights.total_condition hword (by decide) (by decide) hl hcondition hr, ih]
      rfl
  | forLoop hword hl hinitial hcondition hsecond hincrement hr _ ih =>
      exact Weights.total_for hword hl hinitial hcondition hsecond hincrement hr _ ih
  | statement _ ih => exact ih
  | @var_ word ts s hword h =>
      obtain ⟨semicolon, hsemicolon, htotal⟩ :=
        Weights.total_variable (w := w) hword h []
      rw [List.append_nil, Weights.total_last hsemicolon] at htotal
      rw [htotal]
      simp only [StmtPhrase.weight]
      omega
  | function hword _ ih =>
      rw [Weights.total_word hword (by decide) (by decide), ih]
      rfl
  | class_ hword hname hl _ hr ih =>
      rw [Weights.total_word hword (by decide) (by decide), Weights.total_leaf hname,
        Weights.total_enclosed hl hr, ih]
      simp only [StmtPhrase.weight, Stmt.weight]
      omega
  | noDeclarations | noMethods => exact Weights.total_nil
  | declarations _ hss ih ihRest | methods _ hss ih ihRest =>
      rw [Weights.total_append hss.head_ne_semicolon, ih, ihRest]
      rfl
  | @body name l r open_ close ps us params ss hname hl hparams hr hopen _ hclose ih =>
      have hcount : ps.countP (fun t => isLeaf t.kind) = params.length := by
        cases hparams with
        | none => rfl
        | some h _ => exact countP_isLeaf_of_names h
      rw [Weights.total_leaf hname, Weights.total_symbol hl (by decide),
        Weights.total_append_of_not_separates hparams.not_separates,
        Weights.total_symbol hr (by decide), Weights.total_enclosed hopen hclose, ih, hcount]
      simp only [StmtPhrase.weight, FunctionDecl.weight]
      omega

end Parsing

end Lox
