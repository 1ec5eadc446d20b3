import Lox.Proofs.Syntax.Derivation
import Lox.Proofs.Syntax.Program
import Lox.Tree.Text

/-!
Expressions written out as tokens.

`Expr.yield` lists the tokens of a tree in the order of its text, with nothing added that the tree
does not show. An expression that is on the ladder of operators is read back from its own tokens,
and what is read from any tokens is on the ladder and has those tokens.
-/

namespace Lox

variable {Label : Type}

def Token.mark (s : Symbol) : Token := ⟨.symbol s, s.spelling, 1⟩

def Literal.kind : Literal → Kind
  | .nil => .keyword .nil_
  | .boolean true => .keyword .true_
  | .boolean false => .keyword .false_
  | .number n => .number n
  | .string s => .string s

def Literal.token (value : Literal) : Token := ⟨value.kind, value.text, 1⟩

mutual

/-- The tokens of an expression. -/
def Expr.yield : Expr Label → List Token
  | .literal value => [value.token]
  | .grouping inner => .mark .leftParen :: (inner.yield ++ [.mark .rightParen])
  | .unary operator operand => operator :: operand.yield
  | .binary left operator right => left.yield ++ operator :: right.yield
  | .logical left operator right => left.yield ++ operator :: right.yield
  | .var _ name => [name]
  | .assign _ name value => name :: .mark .equal :: value.yield
  | .call callee paren arguments =>
      callee.yield ++ .mark .leftParen ::
        ([.mark .comma].intercalate (Expr.yields arguments) ++ [paren])
  | .get object name => object.yield ++ [.mark .dot, name]
  | .set object name value => object.yield ++ .mark .dot :: name :: .mark .equal :: value.yield
  | .this _ keyword => [keyword]

def Expr.yields : List (Expr Label) → List (List Token)
  | [] => []
  | e :: es => e.yield :: Expr.yields es

end

mutual

/-- The expression without its labels. -/
def Expr.bare : Expr Label → Expr Unit
  | .literal value => .literal value
  | .grouping inner => .grouping inner.bare
  | .unary operator operand => .unary operator operand.bare
  | .binary left operator right => .binary left.bare operator right.bare
  | .logical left operator right => .logical left.bare operator right.bare
  | .var _ name => .var () name
  | .assign _ name value => .assign () name value.bare
  | .call callee paren arguments => .call callee.bare paren (Expr.bareAll arguments)
  | .get object name => .get object.bare name
  | .set object name value => .set object.bare name value.bare
  | .this _ keyword => .this () keyword

def Expr.bareAll : List (Expr Label) → List (Expr Unit)
  | [] => []
  | e :: es => e.bare :: Expr.bareAll es

end

theorem Expr.length_bareAll (es : List (Expr Label)) : (Expr.bareAll es).length = es.length := by
  induction es with
  | nil => rfl
  | cons e es ih => rw [Expr.bareAll, List.length_cons, List.length_cons, ih]

/-- The rung of an operator that joins two truth values. -/
def logicalRung? : Kind → Option Nat
  | .keyword .or_ => some 1
  | .keyword .and_ => some 2
  | _ => none

/-- The rung of any other operator between two operands. -/
def binaryRung? : Kind → Option Nat
  | .symbol .bangEqual | .symbol .equalEqual => some 3
  | .symbol .greater | .symbol .greaterEqual | .symbol .less | .symbol .lessEqual => some 4
  | .symbol .minus | .symbol .plus => some 5
  | .symbol .star | .symbol .slash => some 6
  | _ => none

/-- The rung of an expression on the ladder of operators: assignments are on the lowest one, 0,
unary operators on 7, calls and properties on 8, and what is in one piece on 9. -/
def Expr.rung : Expr Label → Nat
  | .assign _ _ _ | .set _ _ _ => 0
  | .logical _ operator _ => (logicalRung? operator.kind).getD 0
  | .binary _ operator _ => (binaryRung? operator.kind).getD 0
  | .unary _ _ => 7
  | .call _ _ _ | .get _ _ => 8
  | .literal _ | .grouping _ | .var _ _ | .this _ _ => 9

mutual

/-- No part of the expression stands where only parts from higher rungs may stand, and its tokens
are of the kinds that belong in their places. -/
def Expr.onLadder : Expr Label → Bool
  | .literal _ => true
  | .grouping inner => inner.onLadder
  | .unary operator operand =>
      (operator.kind = .symbol .bang || operator.kind = .symbol .minus) &&
        7 ≤ operand.rung && operand.onLadder
  | .binary left operator right =>
      (binaryRung? operator.kind).any (fun rung => rung ≤ left.rung && rung < right.rung) &&
        left.onLadder && right.onLadder
  | .logical left operator right =>
      (logicalRung? operator.kind).any (fun rung => rung ≤ left.rung && rung < right.rung) &&
        left.onLadder && right.onLadder
  | .var _ name => name.kind = .identifier
  | .assign _ name value => name.kind = .identifier && value.onLadder
  | .call callee paren arguments =>
      8 ≤ callee.rung && callee.onLadder && paren.kind = .symbol .rightParen &&
        arguments.length ≤ 255 && Expr.onLadderAll arguments
  | .get object name => 8 ≤ object.rung && object.onLadder && name.kind = .identifier
  | .set object name value =>
      8 ≤ object.rung && object.onLadder && name.kind = .identifier && value.onLadder
  | .this _ keyword => keyword.kind = .keyword .this_

def Expr.onLadderAll : List (Expr Label) → Bool
  | [] => true
  | e :: es => e.onLadder && Expr.onLadderAll es

end

namespace Parsing

variable {ts us : List Token} {e : Expr Unit}

/-- What stands on a rung, and may stand on all rungs below it. -/
def phraseAt (e : Expr Unit) : Nat → ExprPhrase
  | 0 => .expression e
  | 1 => .binary levels e
  | 2 => .binary (levels.drop 1) e
  | 3 => .binary (levels.drop 2) e
  | 4 => .binary (levels.drop 3) e
  | 5 => .binary (levels.drop 4) e
  | 6 => .binary (levels.drop 5) e
  | 7 => .unary e
  | 8 => .call e
  | _ => .primary e

theorem ReadsAs.stepDown {rung : Nat} (h : ReadsAs ts (phraseAt e (rung + 1))) :
    ReadsAs ts (phraseAt e rung) := by
  match rung, h with
  | 0, h => exact .plain h
  | 1, h | 2, h | 3, h | 4, h | 5, h => exact .tighter h
  | 6, h => exact .tighter (.tightest h)
  | 7, h => exact .operand h
  | 8, h => exact .primary h
  | _ + 9, h => exact h

theorem ReadsAs.descend {low high : Nat} (hle : low ≤ high) (h : ReadsAs ts (phraseAt e high)) :
    ReadsAs ts (phraseAt e low) := by
  induction hle with
  | refl => exact h
  | step _ ih => exact ih h.stepDown

/-- An operator joins what stands on its rung with what stands on the next one. -/
theorem ReadsAs.joined {operator : Token} {rung : Nat} {a b : Expr Unit}
    {join : Expr Unit → Token → Expr Unit → Expr Unit}
    (hoperator : (binaryRung? operator.kind = some rung ∧ join = .binary) ∨
      (logicalRung? operator.kind = some rung ∧ join = .logical))
    (ha : ReadsAs ts (phraseAt a rung)) (hb : ReadsAs us (phraseAt b (rung + 1))) :
    ReadsAs (ts ++ operator :: us) (phraseAt (join a operator b) rung) := by
  rcases hoperator with ⟨hrung, rfl⟩ | ⟨hrung, rfl⟩
  · unfold binaryRung? at hrung
    split at hrung <;> cases hrung
    case h_9 hkind | h_10 hkind => exact ReadsAs.join ha (by simp [hkind]) (.tightest hb)
    all_goals
      rename_i hkind
      exact ReadsAs.join ha (by simp [hkind]) hb
  · unfold logicalRung? at hrung
    split at hrung <;> cases hrung
    all_goals
      rename_i hkind
      exact ReadsAs.join ha (by simp [hkind]) hb

theorem intercalate_yields_cons (word : List Token) {es : List (Expr Label)} (h : es ≠ []) :
    [Token.mark .comma].intercalate (word :: Expr.yields es) =
      word ++ .mark .comma :: [Token.mark .comma].intercalate (Expr.yields es) := by
  cases es with
  | nil => exact absurd rfl h
  | cons e es =>
      rw [Expr.yields, List.intercalate_cons_cons, List.append_assoc, List.singleton_append]

theorem literal?_kind (value : Literal) : literal? value.kind = some value := by
  cases value with
  | boolean b => cases b <;> rfl
  | _ => rfl

theorem kind_of_literal? {k : Kind} {value : Literal} (h : literal? k = some value) :
    value.kind = k := by
  unfold literal? at h
  split at h <;> cases h <;> rfl

mutual

/-- The tokens of an expression on the ladder stand for it, on its rung. -/
theorem readsAs_yield : ∀ e : Expr Label, e.onLadder → ReadsAs e.yield (phraseAt e.bare e.rung)
  | .literal value, _ => .literal (literal?_kind value)
  | .grouping inner, h => .grouping rfl ((readsAs_yield inner h).descend (Nat.zero_le _)) rfl
  | .unary operator operand, h => by
      simp only [Expr.onLadder, Bool.and_eq_true, Bool.or_eq_true, decide_eq_true_eq] at h
      obtain ⟨⟨hoperator, hrung⟩, hoperand⟩ := h
      exact .unary (by simpa [unaryOperators] using hoperator)
        ((readsAs_yield operand hoperand).descend hrung)
  | .binary left operator right, h => by
      simp only [Expr.onLadder, Bool.and_eq_true, Option.any_eq_true, decide_eq_true_eq] at h
      obtain ⟨⟨⟨rung, hrung, hl, hr⟩, hleft⟩, hright⟩ := h
      rw [Expr.rung, hrung]
      exact .joined (.inl ⟨hrung, rfl⟩) ((readsAs_yield left hleft).descend hl)
        ((readsAs_yield right hright).descend hr)
  | .logical left operator right, h => by
      simp only [Expr.onLadder, Bool.and_eq_true, Option.any_eq_true, decide_eq_true_eq] at h
      obtain ⟨⟨⟨rung, hrung, hl, hr⟩, hleft⟩, hright⟩ := h
      rw [Expr.rung, hrung]
      exact .joined (.inr ⟨hrung, rfl⟩) ((readsAs_yield left hleft).descend hl)
        ((readsAs_yield right hright).descend hr)
  | .var _ name, h => .name (of_decide_eq_true h)
  | .assign _ name value, h => by
      simp only [Expr.onLadder, Bool.and_eq_true, decide_eq_true_eq] at h
      have hname : ReadsAs [name] (phraseAt (.var () name) 9) := .name h.1
      -- the target is read as an operand before it turns out to be one
      have htarget : ReadsAs [name] (phraseAt (.var () name) 1) := hname.descend (by decide)
      exact .assign htarget rfl ((readsAs_yield value h.2).descend (Nat.zero_le _)) rfl
  | .call callee paren arguments, h => by
      simp only [Expr.onLadder, Bool.and_eq_true, decide_eq_true_eq] at h
      obtain ⟨⟨⟨⟨hrung, hcallee⟩, hparen⟩, hcount⟩, harguments⟩ := h
      refine .call ((readsAs_yield callee hcallee).descend hrung) rfl ?_ hparen
      cases arguments with
      | nil => exact .noArguments
      | cons first others =>
          refine .arguments (readsAs_yields (first :: others) (by simp) harguments) ?_
          rwa [Expr.length_bareAll]
  | .get object name, h => by
      simp only [Expr.onLadder, Bool.and_eq_true, decide_eq_true_eq] at h
      exact .get ((readsAs_yield object h.1.2).descend h.1.1) rfl h.2
  | .set object name value, h => by
      simp only [Expr.onLadder, Bool.and_eq_true, decide_eq_true_eq] at h
      obtain ⟨⟨⟨hrung, hobject⟩, hname⟩, hvalue⟩ := h
      have hget : ReadsAs (object.yield ++ [.mark .dot, name])
          (phraseAt (.get object.bare name) 8) :=
        .get ((readsAs_yield object hobject).descend hrung) rfl hname
      have htarget : ReadsAs (object.yield ++ [.mark .dot, name])
          (phraseAt (.get object.bare name) 1) := hget.descend (by decide)
      have hvalue : ReadsAs value.yield (.expression value.bare) :=
        (readsAs_yield value hvalue).descend (Nat.zero_le _)
      have hset := htarget.assign (rfl : (Token.mark .equal).kind = .symbol .equal) hvalue rfl
      rw [List.append_assoc] at hset
      exact hset
  | .this _ _, h => .this (of_decide_eq_true h)

theorem readsAs_yields : ∀ es : List (Expr Label), es ≠ [] → Expr.onLadderAll es →
    ReadsAs ([Token.mark .comma].intercalate (Expr.yields es)) (.entries (Expr.bareAll es))
  | [], hne, _ => absurd rfl hne
  | e :: es, _, h => by
      rw [Expr.onLadderAll, Bool.and_eq_true] at h
      have he : ReadsAs e.yield (.expression e.bare) :=
        (readsAs_yield e h.1).descend (Nat.zero_le _)
      by_cases hes : es = []
      · subst hes
        rw [Expr.yields, Expr.yields, List.intercalate_singleton]
        exact .lastEntry he
      · rw [Expr.yields, intercalate_yields_cons _ hes]
        exact .entry he rfl (readsAs_yields es hes h.2)

end

/-- Whether the text of a token of this kind counts, as it does for names and operators. -/
def keepsText (k : Kind) : Bool :=
  k = .identifier || k ∈ unaryOperators ||
    (levels : List (Level Unit)).any fun level => k ∈ level.operators

/-- What a token says wherever it stands. A value is a part of the kind. -/
def meaning (t : Token) : Kind × Option String :=
  (t.kind, if keepsText t.kind then some t.lexeme else none)

theorem meaning_eq {t u : Token} (hkind : t.kind = u.kind) (hmark : keepsText u.kind = false) :
    meaning t = meaning u := by
  rw [meaning, meaning, hkind, if_neg (by simp [hmark]), if_neg (by simp [hmark])]

theorem meaning_mark {t : Token} {s : Symbol} (h : t.kind = .symbol s)
    (hmark : keepsText (.symbol s) = false) : meaning (.mark s) = meaning t :=
  (meaning_eq h hmark).symm

theorem meaning_literal {t : Token} {value : Literal} (h : literal? t.kind = some value) :
    meaning value.token = meaning t := by
  refine (meaning_eq (u := value.token) (kind_of_literal? h).symm ?_).symm
  cases value with
  | boolean b => cases b <;> decide
  | _ => simp [Literal.token, Literal.kind, keepsText, unaryOperators, levels]

/-- The tokens of what is read. -/
def ExprPhrase.yield : ExprPhrase → List Token
  | .expression e | .binary _ e | .unary e | .call e | .primary e => e.yield
  | .arguments es | .entries es => [Token.mark .comma].intercalate (Expr.yields es)

theorem yield_join {level : Level Unit} (h : level ∈ levels) (a b : Expr Unit) (operator : Token) :
    (level.join a operator b).yield = a.yield ++ operator :: b.yield := by
  simp only [levels, List.mem_cons, List.not_mem_nil, or_false] at h
  rcases h with rfl | rfl | rfl | rfl | rfl | rfl <;> rfl

theorem yield_of_assigned? {target value e : Expr Unit} (h : assigned? target value = some e) :
    e.yield = target.yield ++ .mark .equal :: value.yield := by
  cases target <;> cases h
  · rfl
  · simp [Expr.yield]

/-- What is read has the tokens that it was read from. -/
theorem ReadsAs.yield_eq {ph : ExprPhrase} (h : ReadsAs ts ph) (hlevels : ph.levels <:+ levels) :
    ph.yield.map meaning = ts.map meaning := by
  induction h with
  | literal h => exact congrArg (fun m => [m]) (meaning_literal h)
  | name | this | noArguments => rfl
  | grouping hl _ hr ih =>
      have hinner := ih List.nil_suffix
      simp only [ExprPhrase.yield] at hinner
      simp [ExprPhrase.yield, Expr.yield, hinner, meaning_mark hl rfl, meaning_mark hr rfl]
  | primary _ ih | operand _ ih | tightest _ ih | arguments _ _ ih => exact ih List.nil_suffix
  | plain _ ih => exact ih List.suffix_rfl
  | tighter _ ih => exact ih ((List.suffix_cons _ _).trans hlevels)
  | call _ hl _ _ ihcallee ihargs =>
      have hcallee := ihcallee List.nil_suffix
      have hargs := ihargs List.nil_suffix
      simp only [ExprPhrase.yield] at hcallee hargs
      simp [ExprPhrase.yield, Expr.yield, hcallee, hargs, meaning_mark hl rfl]
  | get _ hdot _ ih =>
      have hobject := ih List.nil_suffix
      simp only [ExprPhrase.yield] at hobject
      simp [ExprPhrase.yield, Expr.yield, hobject, meaning_mark hdot rfl]
  | lastEntry _ ih =>
      rw [ExprPhrase.yield, Expr.yields, Expr.yields, List.intercalate_singleton]
      exact ih List.nil_suffix
  | entry _ hcomma hothers ihentry ihothers =>
      have hentry := ihentry List.nil_suffix
      have hothers' := ihothers List.nil_suffix
      simp only [ExprPhrase.yield] at hentry hothers'
      rw [ExprPhrase.yield, Expr.yields, intercalate_yields_cons _ (by cases hothers <;> simp)]
      simp [hentry, hothers', meaning_mark hcomma rfl]
  | unary _ _ ih => exact congrArg (_ :: ·) (ih List.nil_suffix)
  | join _ _ _ ihleft ihright =>
      have hleft := ihleft hlevels
      have hright := ihright ((List.suffix_cons _ _).trans hlevels)
      simp only [ExprPhrase.yield] at hleft hright
      rw [ExprPhrase.yield, yield_join (hlevels.subset (by simp [ExprPhrase.levels]))]
      simp [hleft, hright]
  | assign _ hequals _ h ihtarget ihvalue =>
      have htarget := ihtarget List.suffix_rfl
      have hvalue := ihvalue List.nil_suffix
      simp only [ExprPhrase.yield] at htarget hvalue
      rw [ExprPhrase.yield, yield_of_assigned? h]
      simp [htarget, hvalue, meaning_mark hequals rfl]

/-- What makes a phrase keep to the ladder, and the rung that it reaches. -/
def ExprPhrase.onLadder : ExprPhrase → Prop
  | .expression e => e.onLadder
  | .binary levels e => e.onLadder ∧ 7 - levels.length ≤ e.rung
  | .unary e => e.onLadder ∧ 7 ≤ e.rung
  | .call e => e.onLadder ∧ 8 ≤ e.rung
  | .primary e => e.onLadder ∧ 9 ≤ e.rung
  | .arguments es => Expr.onLadderAll es ∧ es.length ≤ 255
  | .entries es => Expr.onLadderAll es

theorem rung_of_mem_operators {level : Level Unit} {tighter : List (Level Unit)} {k : Kind}
    (hlevels : level :: tighter <:+ levels) (h : k ∈ level.operators) :
    (level.join = .binary ∧ binaryRung? k = some (6 - tighter.length)) ∨
      (level.join = .logical ∧ logicalRung? k = some (6 - tighter.length)) := by
  simp only [levels, List.suffix_cons_iff, List.cons.injEq, List.suffix_nil, reduceCtorEq,
    or_false] at hlevels
  rcases hlevels with ⟨rfl, rfl⟩ | ⟨rfl, rfl⟩ | ⟨rfl, rfl⟩ | ⟨rfl, rfl⟩ | ⟨rfl, rfl⟩ | ⟨rfl, rfl⟩
  · exact .inr ⟨rfl, (by decide : ∀ k ∈ _, logicalRung? k = some 1) k h⟩
  · exact .inr ⟨rfl, (by decide : ∀ k ∈ _, logicalRung? k = some 2) k h⟩
  · exact .inl ⟨rfl, (by decide : ∀ k ∈ _, binaryRung? k = some 3) k h⟩
  · exact .inl ⟨rfl, (by decide : ∀ k ∈ _, binaryRung? k = some 4) k h⟩
  · exact .inl ⟨rfl, (by decide : ∀ k ∈ _, binaryRung? k = some 5) k h⟩
  · exact .inl ⟨rfl, (by decide : ∀ k ∈ _, binaryRung? k = some 6) k h⟩

theorem join_onLadder {level : Level Unit} {tighter : List (Level Unit)} {operator : Token}
    {a b : Expr Unit}
    (hlevels : level :: tighter <:+ levels) (h : operator.kind ∈ level.operators)
    (ha : (ExprPhrase.binary (level :: tighter) a).onLadder)
    (hb : (ExprPhrase.binary tighter b).onLadder) :
    (ExprPhrase.binary (level :: tighter) (level.join a operator b)).onLadder := by
  obtain ⟨ha, hrunga⟩ := ha
  obtain ⟨hb, hrungb⟩ := hb
  have hlength : tighter.length < 6 := hlevels.length_le
  rw [List.length_cons] at hrunga
  have hleft : 6 - tighter.length ≤ a.rung := by omega
  have hright : 6 - tighter.length < b.rung := by omega
  rcases rung_of_mem_operators hlevels h with ⟨hjoin, hrung⟩ | ⟨hjoin, hrung⟩ <;>
    · rw [hjoin]
      refine ⟨by simp [Expr.onLadder, hrung, ha, hb, hleft, hright], ?_⟩
      rw [Expr.rung, hrung, List.length_cons, Option.getD_some]
      omega

theorem assigned?_onLadder {target value e : Expr Unit} (h : assigned? target value = some e)
    (htarget : target.onLadder) (hvalue : value.onLadder) : e.onLadder := by
  cases target <;> cases h <;> simp_all [Expr.onLadder]

theorem ReadsAs.onLadder {ph : ExprPhrase} (h : ReadsAs ts ph) (hlevels : ph.levels <:+ levels) :
    ph.onLadder := by
  induction h with
  | literal => exact ⟨rfl, Nat.le_refl _⟩
  | name h | this h => exact ⟨decide_eq_true h, Nat.le_refl _⟩
  | grouping _ _ _ ih => exact ⟨ih List.nil_suffix, Nat.le_refl _⟩
  | primary _ ih | operand _ ih =>
      obtain ⟨he, hrung⟩ := ih List.nil_suffix
      exact ⟨he, Nat.le_of_succ_le hrung⟩
  | call _ _ _ hr ihcallee ihargs =>
      obtain ⟨hcallee, hrung⟩ := ihcallee List.nil_suffix
      obtain ⟨hargs, hcount⟩ := ihargs List.nil_suffix
      exact ⟨by simp [Expr.onLadder, hcallee, hrung, hr, hargs, hcount], Nat.le_refl _⟩
  | get _ _ hname ih =>
      obtain ⟨hobject, hrung⟩ := ih List.nil_suffix
      exact ⟨by simp [Expr.onLadder, hobject, hrung, hname], Nat.le_refl _⟩
  | noArguments => exact ⟨rfl, Nat.zero_le _⟩
  | arguments _ hcount ih => exact ⟨ih List.nil_suffix, hcount⟩
  | lastEntry _ ih =>
      have hentry : Expr.onLadder _ := ih List.nil_suffix
      simp [ExprPhrase.onLadder, Expr.onLadderAll, hentry]
  | entry _ _ _ ihentry ihothers =>
      have hentry : Expr.onLadder _ := ihentry List.nil_suffix
      have hothers : Expr.onLadderAll _ := ihothers List.nil_suffix
      simp [ExprPhrase.onLadder, Expr.onLadderAll, hentry, hothers]
  | unary h _ ih =>
      obtain ⟨hoperand, hrung⟩ := ih List.nil_suffix
      refine ⟨?_, Nat.le_refl _⟩
      simpa [Expr.onLadder, hoperand, hrung, unaryOperators] using h
  | tightest _ ih => exact ih List.nil_suffix
  | tighter _ ih =>
      obtain ⟨he, hrung⟩ := ih ((List.suffix_cons _ _).trans hlevels)
      refine ⟨he, Nat.le_trans ?_ hrung⟩
      rw [List.length_cons]
      omega
  | join _ h _ ihleft ihright =>
      exact join_onLadder hlevels h (ihleft hlevels)
        (ihright ((List.suffix_cons _ _).trans hlevels))
  | plain _ ih => exact (ih List.suffix_rfl).1
  | assign _ _ _ h ihtarget ihvalue =>
      exact assigned?_onLadder h (ihtarget List.suffix_rfl).1 (ihvalue List.nil_suffix)

/-- The kinds of token that expressions are made of. -/
def inExpressions (k : Kind) : Bool :=
  startsExpression k ||
    k ∈ [Kind.symbol .rightParen, .symbol .comma, .symbol .dot, .symbol .equal] ||
    (levels : List (Level Unit)).any fun level => k ∈ level.operators

theorem inExpressions_of_startsExpression {k : Kind} (h : startsExpression k) :
    inExpressions k := by
  simp [inExpressions, h]

theorem inExpressions_of_mem_operators {level : Level Unit} {k : Kind} (hlevel : level ∈ levels)
    (h : k ∈ level.operators) : inExpressions k := by
  have hany : (levels : List (Level Unit)).any fun level => k ∈ level.operators :=
    List.any_eq_true.mpr ⟨level, hlevel, by simpa using h⟩
  simp [inExpressions, hany]

theorem ReadsAs.kinds_inExpressions {ph : ExprPhrase} (h : ReadsAs ts ph)
    (hlevels : ph.levels <:+ levels) : ∀ t ∈ ts, inExpressions t.kind := by
  induction h with
  | literal h =>
      intro t ht
      obtain rfl := List.mem_singleton.mp ht
      exact inExpressions_of_startsExpression (by simp [startsExpression, h])
  | name h | this h =>
      intro t ht
      obtain rfl := List.mem_singleton.mp ht
      exact inExpressions_of_startsExpression (by simp [startsExpression, h])
  | noArguments => simp
  | primary _ ih | operand _ ih | tightest _ ih | arguments _ _ ih | lastEntry _ ih =>
      exact ih List.nil_suffix
  | plain _ ih => exact ih List.suffix_rfl
  | tighter _ ih => exact ih ((List.suffix_cons _ _).trans hlevels)
  | @grouping l r _ _ hl _ hr ih =>
      have hinner := ih List.nil_suffix
      have hparens : inExpressions l.kind ∧ inExpressions r.kind := by
        rw [hl, hr]
        decide
      grind
  | @call l r _ _ _ _ _ hl _ hr ihcallee ihargs =>
      have hcallee := ihcallee List.nil_suffix
      have hargs := ihargs List.nil_suffix
      have hparens : inExpressions l.kind ∧ inExpressions r.kind := by
        rw [hl, hr]
        decide
      grind
  | @get dot name _ _ _ hdot hname ih =>
      have hobject := ih List.nil_suffix
      have hproperty : inExpressions dot.kind ∧ inExpressions name.kind := by
        rw [hdot, hname]
        decide
      grind
  | @entry comma _ _ _ _ _ hcomma _ ihentry ihothers =>
      have hentry := ihentry List.nil_suffix
      have hothers := ihothers List.nil_suffix
      have hseparator : inExpressions comma.kind := by
        rw [hcomma]
        decide
      grind
  | @unary operator _ _ h _ ih =>
      have hoperand := ih List.nil_suffix
      have hoperator : inExpressions operator.kind :=
        inExpressions_of_startsExpression (by simp [startsExpression, h])
      grind
  | @join level tighter operator _ _ _ _ _ h _ ihleft ihright =>
      have hleft := ihleft hlevels
      have hright := ihright ((List.suffix_cons _ _).trans hlevels)
      have hoperator := inExpressions_of_mem_operators (hlevels.subset List.mem_cons_self) h
      grind
  | @assign equals _ _ _ _ _ _ hequals _ _ ihtarget ihvalue =>
      have htarget := ihtarget List.suffix_rfl
      have hvalue := ihvalue List.nil_suffix
      have hsign : inExpressions equals.kind := by
        rw [hequals]
        decide
      grind

theorem ReadsAs.kind_ne_endOfInput {ph : ExprPhrase} (h : ReadsAs ts ph)
    (hlevels : ph.levels <:+ levels) : ∀ t ∈ ts, t.kind ≠ .endOfInput := by
  intro t ht hend
  have hkind := h.kinds_inExpressions hlevels t ht
  rw [hend] at hkind
  exact absurd hkind (by decide)

/-- Reading an expression and writing out its tokens undo each other: from tokens that are read
without a report comes a tree that has these very tokens, and every tree that keeps to the ladder of
operators comes back from its tokens. -/
theorem singleExpression_yield :
    (∀ (ts : List Token) (stop : Token), (∀ t ∈ ts, t.isEnd = false) → stop.isEnd →
      (singleExpression (ts ++ [stop])).reports = [] →
        ∃ e, (singleExpression (ts ++ [stop])).value = some e ∧
          e.yield.map meaning = ts.map meaning ∧ e.onLadder) ∧
      ∀ {Label : Type} (e : Expr Label) (stop : Token), e.onLadder → stop.isEnd →
        singleExpression (e.yield ++ [stop]) = ⟨some e.bare, []⟩ := by
  constructor
  · intro ts stop hts hstop hreports
    obtain ⟨e, he⟩ := singleExpression_reports_eq_nil_iff.mp hreports
    have hvalue := congrArg Parsed.value (singleExpression_eq_iff.mpr he)
    rw [contents_append hts hstop] at he
    exact ⟨e, hvalue, he.yield_eq List.nil_suffix, he.onLadder List.nil_suffix⟩
  · intro Label e stop he hstop
    have hread : ReadsAs e.yield (.expression e.bare) :=
      (readsAs_yield e he).descend (Nat.zero_le _)
    have hcontents : contents (e.yield ++ [stop]) = e.yield := by
      refine contents_append (fun t ht => ?_) hstop
      simpa [Token.isEnd] using hread.kind_ne_endOfInput List.nil_suffix t ht
    rw [singleExpression_eq_iff, hcontents]
    exact hread

/-- Differences group to the left. -/
theorem singleExpression_yield_differences :
    let a : Token := ⟨.identifier, "a", 1⟩
    let minus : Token := .mark .minus
    let difference : Expr Unit := .binary (.binary (.var () a) minus (.var () a)) minus (.var () a)
    singleExpression ([a, minus, a, minus, a] ++ [.endOfInput 1]) = ⟨some difference, []⟩ ∧
      ∃ e, (singleExpression ([a, minus, a, minus, a] ++ [.endOfInput 1])).value = some e ∧
        e.yield.map meaning = [a, minus, a, minus, a].map meaning ∧ e.onLadder := by
  intro a minus difference
  have hread : singleExpression (difference.yield ++ [.endOfInput 1]) = ⟨some difference, []⟩ :=
    singleExpression_yield.2 difference (.endOfInput 1) (by decide) (by decide)
  exact ⟨hread, singleExpression_yield.1 _ (.endOfInput 1) (by decide) (by decide)
    (congrArg Parsed.reports hread)⟩

end Parsing

end Lox
