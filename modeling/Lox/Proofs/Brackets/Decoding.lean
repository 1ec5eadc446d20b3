import Lox.Proofs.Brackets.Trees
import Lox.Proofs.Relining.Trees

namespace Lox

open Parsing Scan

/-- The token that is spelled so, if it is none of a string or a number. -/
def Token.spelled (w : String) : Token :=
  match Symbol.all.find? fun s => s.spelling == w with
  | some s => ⟨.symbol s, w, 0⟩
  | none => ⟨wordKind w, w, 0⟩

/-- The number that has this text. -/
def Number.ofText (w : String) : Float :=
  match ((Session.new fun _ => 0).evaluate 2 w).1 with
  | .value (.number n) => n
  | _ => 0

namespace Form

/-- The tokens of words. -/
def name : Form → Token
  | word w => .spelled w
  | group _ => .spelled ""

/-- The expression that a word stands for. A word that does not start with a letter is a number. -/
def ofWord (w : String) : Expr Unit :=
  if w.toList.head?.any isLetter then
    match wordKind w with
    | .keyword .nil_ => .literal .nil
    | .keyword .true_ => .literal (.boolean true)
    | .keyword .false_ => .literal (.boolean false)
    | .keyword .this_ => .this () (.spelled w)
    | _ => .var () (.spelled w)
  else .literal (.number (Number.ofText w))

mutual

def expr : Form → Expr Unit
  | word w => ofWord w
  | group [word "group", inner] => .grouping inner.expr
  | group [word ".", object, word name] => .get object.expr (.spelled name)
  | group [word "=", word name, value] => .assign () (.spelled name) value.expr
  | group [word "=", group [word ".", object, word name], value] =>
      .set object.expr (.spelled name) value.expr
  | group (word "call" :: callee :: arguments) =>
      .call callee.expr (.spelled ")") (exprs arguments)
  | group [word operator, operand] => .unary (.spelled operator) operand.expr
  | group [word operator, left, right] =>
      if (Token.spelled operator).kind ∈ logicalOperators then
        .logical left.expr (.spelled operator) right.expr
      else .binary left.expr (.spelled operator) right.expr
  | group _ => .literal .nil

def exprs : List Form → List (Expr Unit)
  | [] => []
  | f :: fs => f.expr :: exprs fs

end

mutual

def stmt : Form → Stmt Unit
  | group [word ";", e] => .expression e.expr
  | group [word "print", e] => .print e.expr
  | group [word "var", word name] => .var (.spelled name) none
  | group [word "var", word name, word "=", initial] => .var (.spelled name) (some initial.expr)
  | group (word "block" :: body) => .block (stmts body)
  | group [word "if", condition, consequent] => .branch condition.expr consequent.stmt none
  | group [word "if", condition, consequent, alternative] =>
      .branch condition.expr consequent.stmt (some alternative.stmt)
  | group [word "while", condition, body] => .loop condition.expr body.stmt
  | group (word "fun" :: word name :: group params :: body) =>
      .function ⟨.spelled name, params.map Form.name, stmts body⟩
  | group [word "return"] => .ret (.spelled "return") none
  | group [word "return", value] => .ret (.spelled "return") (some value.expr)
  | group (word "class" :: word name :: methods) => .class_ (.spelled name) (functions methods)
  | _ => .block []

def stmts : List Form → List (Stmt Unit)
  | [] => []
  | f :: fs => f.stmt :: stmts fs

def function : Form → FunctionDecl Unit
  | group (word _ :: word name :: group params :: body) =>
      ⟨.spelled name, params.map Form.name, stmts body⟩
  | _ => ⟨.spelled "", [], []⟩

def functions : List Form → List (FunctionDecl Unit)
  | [] => []
  | f :: fs => f.function :: functions fs

end

end Form

/-! ### Tokens -/

section

variable {t : Token} {kinds : List Kind} {n : Float}

theorem Symbol.head_spelling (s : Symbol) : ∀ c ∈ s.spelling.toList.head?, isLetter c = false := by
  intro c hc
  cases s <;> cases hc <;> rfl

theorem Token.spelled_symbol (s : Symbol) : spelled s.spelling = ⟨.symbol s, s.spelling, 0⟩ := by
  cases s <;> rfl

theorem Token.spelled_keyword (k : Keyword) : spelled k.spelling = ⟨.keyword k, k.spelling, 0⟩ := by
  cases k <;> rfl

theorem Token.IsAmong.spelled_eq (h : t.IsAmong kinds) (hfixed : ∀ k ∈ kinds, k.isFixed) :
    spelled t.lexeme = t.unlined := by
  have hkind := hfixed t.kind h.kind
  rw [unlined, h.legal.lexeme_eq hkind]
  cases hk : t.kind with
  | symbol s => exact spelled_symbol s
  | keyword k => exact spelled_keyword k
  | identifier | string | number | endOfInput =>
      rw [hk] at hkind
      cases hkind

theorem Token.IsAmong.spelled_only {k : Kind} (h : t.IsAmong [k]) (hfixed : k.isFixed) :
    spelled k.spelling = t.unlined := by
  have hkind : t.kind = k := List.mem_singleton.mp h.kind
  rw [← h.spelled_eq (List.forall_mem_singleton.mpr hfixed),
    h.legal.lexeme_eq (hkind ▸ hfixed), hkind]

theorem Token.IsAmong.wordKind_eq (h : t.IsAmong [.identifier]) :
    wordKind t.lexeme = .identifier := by
  have hnone : Keyword.ofSpelling? t.lexeme = none :=
    Option.eq_none_iff_forall_ne_some.mpr fun k hk =>
      h.isIdentifier.2 k (Keyword.ofSpelling?_eq_some_iff.mp hk)
  rw [wordKind, hnone]

theorem Token.IsAmong.spelled_name (h : t.IsAmong [.identifier]) :
    spelled t.lexeme = t.unlined := by
  have hnone : (Symbol.all.find? fun s => s.spelling == t.lexeme) = none := by
    refine List.find?_eq_none.mpr fun s _ hs => ?_
    obtain ⟨first, others, hw, hletter, -⟩ := h.isIdentifier.1
    rw [← eq_of_beq hs] at hw
    have hmark := s.head_spelling first (by rw [hw]; rfl)
    rw [hletter] at hmark
    cases hmark
  have hkind : t.kind = .identifier := List.mem_singleton.mp h.kind
  rw [spelled, hnone, unlined, h.wordKind_eq, hkind]

theorem Number.ofText_text (h : n.isFinite) : ofText (text n) = n := by
  obtain ⟨r, hr, hbits⟩ := evaluate_text h 0 (.new fun _ => 0)
  rw [ofText, hr]
  exact (Float.ofBits_toBits r).symm.trans (hbits ▸ Float.ofBits_toBits n)

/-! ### Expressions -/

theorem Form.ofWord_name (h : t.IsAmong [.identifier]) : ofWord t.lexeme = .var () t.unlined := by
  obtain ⟨first, others, hw, hletter, -⟩ := h.isIdentifier.1
  have hhead : t.lexeme.toList.head?.any isLetter = true := by
    rw [hw]
    exact hletter
  rw [ofWord, if_pos hhead, h.wordKind_eq, h.spelled_name]

theorem Form.ofWord_this : ofWord "this" = .this () (.spelled "this") := rfl

theorem Form.ofWord_number (h : n.isFinite) :
    ofWord (Number.text n) = .literal (.number n) := by
  obtain ⟨hne, hletters⟩ := Number.text_letters h
  obtain ⟨c, cs, hcs⟩ := List.exists_cons_of_ne_nil hne
  have hhead : (Number.text n).toList.head?.any isLetter = isLetter c := by
    rw [hcs]
    rfl
  have hletter : isLetter c = false := by
    rcases hletters c (hcs ▸ List.mem_cons_self) with hdigit | rfl | rfl
    · refine Bool.eq_false_iff.mpr fun hletter => ?_
      rw [not_isDigit_of_isLetter hletter] at hdigit
      cases hdigit
    · rfl
    · rfl
  rw [ofWord, hhead, hletter, if_neg Bool.false_ne_true, Number.ofText_text h]

theorem Form.ofWord_literal : ∀ {value : Literal}, value.IsPlain →
    ofWord value.text = .literal value
  | .nil, _ | .boolean false, _ | .boolean true, _ => rfl
  | .number _, h => ofWord_number h

theorem notMem_logicalOperators {k : Kind} (h : k ∈ binaryOperators) : k ∉ logicalOperators := by
  revert h
  revert k
  decide

/-- The words that begin a form of another kind than an operator does. -/
def Form.heads : List String := ["group", "call", ".", "="]

theorem Token.IsAmong.notMem_heads (h : t.IsAmong kinds) (hfixed : ∀ k ∈ kinds, k.isFixed)
    (hheads : ∀ w ∈ kinds.map Kind.spelling, w ∉ Form.heads) : t.lexeme ∉ Form.heads :=
  hheads _ (h.lexeme_mem hfixed)

theorem Form.expr_unary {operator : String} (h : operator ∉ heads) (operand : Form) :
    expr (group [word operator, operand]) = .unary (.spelled operator) operand.expr := by
  simp only [heads, List.mem_cons, List.not_mem_nil, or_false, not_or] at h
  rw [Form.expr] <;> simp_all

theorem Form.expr_binary {operator : String} (h : operator ∉ heads) (left right : Form) :
    expr (group [word operator, left, right]) =
      if (Token.spelled operator).kind ∈ logicalOperators then
        .logical left.expr (.spelled operator) right.expr
      else .binary left.expr (.spelled operator) right.expr := by
  simp only [heads, List.mem_cons, List.not_mem_nil, or_false, not_or] at h
  rw [Form.expr] <;> simp_all

end

mutual

/-- The form of an expression shows the expression but for its lines. -/
theorem Expr.expr_form (d : Nat) : ∀ e : Expr Unit, e.IsLegible →
    e.form.expr = e.respell (.everywhere Token.unlined) d
  | .literal value, h => Form.ofWord_literal h
  | .grouping inner, h => by
      rw [form, Form.expr, inner.expr_form d h]
      rfl
  | .unary operator operand, h => by
      have hhead := h.1.notMem_heads (by decide) (by decide)
      rw [form, Form.expr_unary hhead, operand.expr_form d h.2, h.1.spelled_eq (by decide)]
      rfl
  | .binary left operator right, h => by
      have hhead := h.1.notMem_heads (by decide) (by decide)
      rw [form, Form.expr_binary hhead, left.expr_form d h.2.1, right.expr_form d h.2.2,
        h.1.spelled_eq (by decide),
        if_neg (show operator.unlined.kind ∉ _ from notMem_logicalOperators h.1.kind)]
      rfl
  | .logical left operator right, h => by
      have hhead := h.1.notMem_heads (by decide) (by decide)
      rw [form, Form.expr_binary hhead, left.expr_form d h.2.1, right.expr_form d h.2.2,
        h.1.spelled_eq (by decide), if_pos (show operator.unlined.kind ∈ _ from h.1.kind)]
      rfl
  | .var _ name, h => Form.ofWord_name h
  | .assign _ name value, h => by
      rw [form, Form.expr, value.expr_form d h.2, h.1.spelled_name]
      rfl
  | .call callee paren arguments, h => by
      have hparen : Token.spelled ")" = paren.unlined := h.1.spelled_only rfl
      rw [form, Form.expr, callee.expr_form d h.2.1, Expr.exprs_forms d arguments h.2.2, hparen]
      rfl
  | .get object name, h => by
      rw [form, Form.expr, object.expr_form d h.2, h.1.spelled_name]
      rfl
  | .set object name value, h => by
      rw [form, Form.expr, object.expr_form d h.2.1, value.expr_form d h.2.2, h.1.spelled_name]
      rfl
  | .this _ keyword, h => by
      have hkeyword : Token.spelled "this" = keyword.unlined := Token.IsAmong.spelled_only h rfl
      rw [form, Form.expr, Form.ofWord_this, hkeyword]
      rfl

theorem Expr.exprs_forms (d : Nat) : ∀ es : List (Expr Unit), Expr.AreLegible es →
    Form.exprs (Expr.forms es) = Expr.respellAll (.everywhere Token.unlined) d es
  | [], _ => by rw [forms, Form.exprs, respellAll]
  | e :: es, h => by
      rw [forms, Form.exprs, e.expr_form d h.1, Expr.exprs_forms d es h.2, respellAll]

end

theorem Form.names_params {params : List Token}
    (h : ∀ param ∈ params, param.IsAmong [.identifier]) :
    ((params.map Token.lexeme).map Form.word).map Form.name = params.map Token.unlined := by
  rw [List.map_map, List.map_map]
  exact List.map_congr_left fun param hparam => (h param hparam).spelled_name

mutual

theorem Stmt.stmt_form : ∀ (d : Nat) (s : Stmt Unit), s.IsLegible →
    s.form.stmt = s.respell (.everywhere Token.unlined) d
  | d, .expression e, h => by
      rw [Stmt.form, Form.stmt, e.expr_form d h]
      rfl
  | d, .print e, h => by
      rw [Stmt.form, Form.stmt, e.expr_form d h]
      rfl
  | d, .var name none, h => by
      rw [Stmt.form, Form.stmt, Token.IsAmong.spelled_name h]
      rfl
  | d, .var name (some initial), h => by
      rw [Stmt.form, Form.stmt, h.1.spelled_name, initial.expr_form d h.2]
      rfl
  | d, .block body, h => by
      rw [Stmt.form, Form.stmt, Stmt.stmts_forms (d + 1) body h]
      rfl
  | d, .branch condition consequent none, h => by
      rw [Stmt.form, Form.stmt, condition.expr_form d h.1, consequent.stmt_form d h.2]
      rfl
  | d, .branch condition consequent (some alternative), h => by
      rw [Stmt.form, Form.stmt, condition.expr_form d h.1, consequent.stmt_form d h.2.1,
        alternative.stmt_form d h.2.2]
      rfl
  | d, .loop condition body, h => by
      rw [Stmt.form, Form.stmt, condition.expr_form d h.1, body.stmt_form d h.2]
      rfl
  | d, .function ⟨name, params, body⟩, h => by
      rw [Stmt.form, FunctionDecl.form, Form.stmt, h.1.spelled_name, Form.names_params h.2.1,
        Stmt.stmts_forms (d + 1) body h.2.2]
      rfl
  | d, .ret keyword none, h => by
      have hkeyword : Token.spelled "return" = keyword.unlined := Token.IsAmong.spelled_only h rfl
      rw [Stmt.form, Form.stmt, hkeyword]
      rfl
  | d, .ret keyword (some value), h => by
      have hkeyword : Token.spelled "return" = keyword.unlined := h.1.spelled_only rfl
      rw [Stmt.form, Form.stmt, hkeyword, value.expr_form d h.2]
      rfl
  | d, .class_ name methods, h => by
      rw [Stmt.form, Form.stmt, h.1.spelled_name, FunctionDecl.functions_forms (d + 2) methods h.2]
      rfl

theorem Stmt.stmts_forms : ∀ (d : Nat) (ss : List (Stmt Unit)), Stmt.AreLegible ss →
    Form.stmts (Stmt.forms ss) = Stmt.respellAll (.everywhere Token.unlined) d ss
  | d, [], _ => by rw [Stmt.forms, Form.stmts, Stmt.respellAll]
  | d, s :: ss, h => by
      rw [Stmt.forms, Form.stmts, s.stmt_form d h.1, Stmt.stmts_forms d ss h.2, Stmt.respellAll]

theorem FunctionDecl.function_form (word : String) : ∀ (d : Nat) (m : FunctionDecl Unit),
    m.IsLegible → (m.form word).function = m.respell (.everywhere Token.unlined) d
  | d, ⟨name, params, body⟩, h => by
      rw [FunctionDecl.form, Form.function, h.1.spelled_name, Form.names_params h.2.1,
        Stmt.stmts_forms d body h.2.2]
      rfl

theorem FunctionDecl.functions_forms : ∀ (d : Nat) (ms : List (FunctionDecl Unit)),
    FunctionDecl.AreLegible ms →
      Form.functions (FunctionDecl.forms ms) =
        FunctionDecl.respellAll (.everywhere Token.unlined) d ms
  | d, [], _ => by rw [FunctionDecl.forms, Form.functions, FunctionDecl.respellAll]
  | d, m :: ms, h => by
      rw [FunctionDecl.forms, Form.functions, m.function_form "method" d h.1,
        FunctionDecl.functions_forms d ms h.2, FunctionDecl.respellAll]

end

end Lox
