import Lox.Parsing.Expression
import Lox.Proofs.Syntax.Reply

/-!
Which tokens stand for which expression.

`ReadsAs` relates a stretch of tokens to what it stands for at one level of the grammar, without
a cursor and without tokens that follow. The rules of the parser accept exactly such stretches:
`expression_reads` goes from a reply to a stretch, `accepts_of_readsAs` from a stretch to the reply.
-/

namespace Lox.Parsing

/-- The levels of the grammar, each with what is read there. -/
inductive ExprPhrase
  | expression (e : Expr Unit)
  | binary (levels : List (Level Unit)) (e : Expr Unit)
  | unary (e : Expr Unit)
  | call (e : Expr Unit)
  | primary (e : Expr Unit)
  | arguments (es : List (Expr Unit))
  | entries (es : List (Expr Unit))

/-- The assignment to a target, which has to be a name or a property. -/
def assigned? (target value : Expr Unit) : Option (Expr Unit) :=
  match target with
  | .var _ name => some (.assign () name value)
  | .get object name => some (.set object name value)
  | _ => none

inductive ReadsAs : List Token → ExprPhrase → Prop
  | literal {t : Token} {value : Literal} (h : literal? t.kind = some value) :
      ReadsAs [t] (.primary (.literal value))
  | name {t : Token} (h : t.kind = .identifier) : ReadsAs [t] (.primary (.var () t))
  | this {t : Token} (h : t.kind = .keyword .this_) : ReadsAs [t] (.primary (.this () t))
  | grouping {l r : Token} {ts : List Token} {e : Expr Unit} (hl : l.kind = .symbol .leftParen)
      (hinner : ReadsAs ts (.expression e)) (hr : r.kind = .symbol .rightParen) :
      ReadsAs (l :: (ts ++ [r])) (.primary (.grouping e))
  | primary {ts : List Token} {e : Expr Unit} (h : ReadsAs ts (.primary e)) : ReadsAs ts (.call e)
  | call {l r : Token} {ts us : List Token} {callee : Expr Unit} {es : List (Expr Unit)}
      (hcallee : ReadsAs ts (.call callee)) (hl : l.kind = .symbol .leftParen)
      (hargs : ReadsAs us (.arguments es)) (hr : r.kind = .symbol .rightParen) :
      ReadsAs (ts ++ l :: (us ++ [r])) (.call (.call callee r es))
  | get {dot name : Token} {ts : List Token} {object : Expr Unit}
      (hobject : ReadsAs ts (.call object)) (hdot : dot.kind = .symbol .dot)
      (hname : name.kind = .identifier) : ReadsAs (ts ++ [dot, name]) (.call (.get object name))
  | noArguments : ReadsAs [] (.arguments [])
  | arguments {ts : List Token} {es : List (Expr Unit)} (hentries : ReadsAs ts (.entries es))
      (h : es.length ≤ entryLimit) : ReadsAs ts (.arguments es)
  | lastEntry {ts : List Token} {e : Expr Unit} (hentry : ReadsAs ts (.expression e)) :
      ReadsAs ts (.entries [e])
  | entry {comma : Token} {ts us : List Token} {e : Expr Unit} {es : List (Expr Unit)}
      (hentry : ReadsAs ts (.expression e)) (hcomma : comma.kind = .symbol .comma)
      (hothers : ReadsAs us (.entries es)) : ReadsAs (ts ++ comma :: us) (.entries (e :: es))
  | operand {ts : List Token} {e : Expr Unit} (h : ReadsAs ts (.call e)) : ReadsAs ts (.unary e)
  | unary {operator : Token} {ts : List Token} {e : Expr Unit}
      (h : operator.kind ∈ unaryOperators) (hoperand : ReadsAs ts (.unary e)) :
      ReadsAs (operator :: ts) (.unary (.unary operator e))
  | tightest {ts : List Token} {e : Expr Unit} (h : ReadsAs ts (.unary e)) :
      ReadsAs ts (.binary [] e)
  | tighter {level : Level Unit} {levels : List (Level Unit)} {ts : List Token} {e : Expr Unit}
      (h : ReadsAs ts (.binary levels e)) : ReadsAs ts (.binary (level :: levels) e)
  | join {level : Level Unit} {levels : List (Level Unit)} {operator : Token} {ts us : List Token}
      {a b : Expr Unit} (hleft : ReadsAs ts (.binary (level :: levels) a))
      (h : operator.kind ∈ level.operators) (hright : ReadsAs us (.binary levels b)) :
      ReadsAs (ts ++ operator :: us) (.binary (level :: levels) (level.join a operator b))
  | plain {ts : List Token} {e : Expr Unit} (h : ReadsAs ts (.binary levels e)) :
      ReadsAs ts (.expression e)
  | assign {equals : Token} {ts us : List Token} {target value e : Expr Unit}
      (htarget : ReadsAs ts (.binary levels target)) (hequals : equals.kind = .symbol .equal)
      (hvalue : ReadsAs us (.expression value)) (h : assigned? target value = some e) :
      ReadsAs (ts ++ equals :: us) (.expression e)

/-- The kinds of token with which an expression starts. -/
def startsExpression (k : Kind) : Bool :=
  (literal? k).isSome || k = .identifier || k = .keyword .this_ || k = .symbol .leftParen ||
    k ∈ unaryOperators

/-- A phrase that is not a list of arguments is not empty, and it starts as expressions do. -/
theorem ReadsAs.starts {ts : List Token} {p : ExprPhrase} (h : ReadsAs ts p)
    (hp : ∀ es, p ≠ .arguments es) : ∃ t rest, ts = t :: rest ∧ startsExpression t.kind := by
  induction h with
  | literal h => exact ⟨_, _, rfl, by simp [startsExpression, h]⟩
  | name h => exact ⟨_, _, rfl, by simp [startsExpression, h]⟩
  | this h => exact ⟨_, _, rfl, by simp [startsExpression, h]⟩
  | grouping hl _ _ => exact ⟨_, _, rfl, by simp [startsExpression, hl]⟩
  | unary h _ _ => exact ⟨_, _, rfl, by simp [startsExpression, h]⟩
  | noArguments => exact absurd rfl (hp _)
  | arguments => exact absurd rfl (hp _)
  | primary _ ih | lastEntry _ ih | operand _ ih | tightest _ ih | tighter _ ih | plain _ ih =>
      exact ih (by simp)
  | get _ _ _ ih =>
      obtain ⟨t, rest, rfl, ht⟩ := ih (by simp)
      exact ⟨t, _, rfl, ht⟩
  | call _ _ _ _ ih _ | entry _ _ _ ih _ | join _ _ _ ih _ | assign _ _ _ _ ih _ =>
      obtain ⟨t, rest, rfl, ht⟩ := ih (by simp)
      exact ⟨t, _, rfl, ht⟩

/-- A token of this kind would go on with an operand of the levels. -/
def continues (levels : List (Level Unit)) (k : Kind) : Prop :=
  k = .symbol .leftParen ∨ k = .symbol .dot ∨ ∃ level ∈ levels, k ∈ level.operators

/-- The tokens do not go on with an operand of the levels. -/
def Stops (levels : List (Level Unit)) (tokens : List Token) : Prop :=
  ∀ t ∈ tokens.head?, ¬continues levels t.kind

/-- The tokens do not go on with an expression. -/
def Ends (tokens : List Token) : Prop :=
  Stops levels tokens ∧ ∀ t ∈ tokens.head?, t.kind ≠ .symbol .equal

theorem Stops.tighter {level : Level Unit} {levels : List (Level Unit)} {tokens : List Token}
    (h : Stops (level :: levels) tokens) : Stops levels tokens := by
  intro t ht hcontinues
  refine h t ht ?_
  rcases hcontinues with hparen | hdot | ⟨l, hl, hkind⟩
  · exact .inl hparen
  · exact .inr (.inl hdot)
  · exact .inr (.inr ⟨l, List.mem_cons_of_mem _ hl, hkind⟩)

theorem Ends.of_symbol {t : Token} {rest : List Token} {s : Symbol} (h : t.kind = .symbol s)
    (hs : s = .semicolon ∨ s = .rightParen ∨ s = .comma) : Ends (t :: rest) := by
  constructor
  · intro u hu hcontinues
    cases hu
    rw [h] at hcontinues
    rcases hs with rfl | rfl | rfl <;> simp [continues, levels] at hcontinues
  · intro u hu
    cases hu
    rw [h]
    rcases hs with rfl | rfl | rfl <;> simp

end Lox.Parsing
