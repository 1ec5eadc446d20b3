import Lox.Proofs.Syntax.ExpressionSound

namespace Lox.Parsing

theorem not_continues_of_mem_operators {level : Level Unit} {tighter : List (Level Unit)} {k : Kind}
    (h : level :: tighter <:+ levels) (hk : k ∈ level.operators) : ¬continues tighter k := by
  simp only [levels, List.suffix_cons_iff, List.cons.injEq, List.suffix_nil, reduceCtorEq,
    or_false] at h
  rcases h with ⟨rfl, rfl⟩ | ⟨rfl, rfl⟩ | ⟨rfl, rfl⟩ | ⟨rfl, rfl⟩ | ⟨rfl, rfl⟩ | ⟨rfl, rfl⟩ <;>
    · simp only [List.mem_cons, List.not_mem_nil, or_false] at hk
      rcases hk with rfl | rfl | rfl | rfl <;> simp [continues]

theorem Stops.of_operator {level : Level Unit} {tighter : List (Level Unit)} {operator : Token}
    {rest : List Token} (h : level :: tighter <:+ levels)
    (hoperator : operator.kind ∈ level.operators) : Stops tighter (operator :: rest) := by
  intro t ht
  cases ht
  exact not_continues_of_mem_operators h hoperator

theorem Stops.of_equal {equals : Token} {rest : List Token} (h : equals.kind = .symbol .equal) :
    Stops levels (equals :: rest) := by
  intro t ht
  cases ht
  rw [h]
  simp [continues, levels]

theorem callTail_accepts_of_stops {stop : Token} {callee : Expr Unit} {rest : List Token}
    (h : Stops [] rest) : (callTail Reply stop callee rest).Accepts callee rest := by
  unfold callTail
  cases rest with
  | nil => exact Reply.accepts_pure_iff.mpr ⟨rfl, rfl⟩
  | cons t after =>
      have ht : ¬continues [] t.kind := h t rfl
      dsimp only
      rw [if_neg fun hparen => ht (.inl hparen), if_neg fun hdot => ht (.inr (.inl hdot))]
      exact Reply.accepts_pure_iff.mpr ⟨rfl, rfl⟩

theorem binaryTail_accepts_of_stops {stop : Token} {level : Level Unit}
    {tighter : List (Level Unit)} {left : Expr Unit} {rest : List Token}
    (h : Stops (level :: tighter) rest) :
    (binaryTail Reply stop level tighter left rest).Accepts left rest := by
  unfold binaryTail
  cases rest with
  | nil => exact Reply.accepts_pure_iff.mpr ⟨rfl, rfl⟩
  | cons t after =>
      have ht : ¬continues (level :: tighter) t.kind := h t rfl
      dsimp only
      rw [if_neg fun hmem => ht (.inr (.inr ⟨level, List.mem_cons_self, hmem⟩))]
      exact Reply.accepts_pure_iff.mpr ⟨rfl, rfl⟩

/-- What the rule for a phrase does with tokens that stand for it and others after them. -/
def AcceptedAs (stop : Token) (ts : List Token) : ExprPhrase → Prop
  | .expression e => ∀ rest, Ends rest → (expression Reply stop (ts ++ rest)).Accepts e rest
  | .binary [] e => ∀ rest, Stops [] rest → (binary Reply stop [] (ts ++ rest)).Accepts e rest
  | .binary (level :: tighter) e => level :: tighter <:+ levels → ∀ rest value after,
      Stops tighter rest → (binaryTail Reply stop level tighter e rest).Accepts value after →
      (binary Reply stop (level :: tighter) (ts ++ rest)).Accepts value after
  | .unary e => ∀ rest, Stops [] rest → (unary Reply stop (ts ++ rest)).Accepts e rest
  | .call e => ∀ rest value after, (callTail Reply stop e rest).Accepts value after →
      (call Reply stop (ts ++ rest)).Accepts value after
  | .primary e => ∀ rest, (primary Reply stop (ts ++ rest)).Accepts e rest
  | .arguments es => ∀ close rest, close.kind = .symbol .rightParen →
      (arguments Reply stop (ts ++ close :: rest)).Accepts es (close :: rest)
  | .entries es => ∀ seen close rest, seen + es.length ≤ entryLimit →
      close.kind = .symbol .rightParen →
      (entries Reply stop seen (ts ++ close :: rest)).Accepts es (close :: rest)

/-- A whole operand is accepted where none of its operators follows. -/
theorem AcceptedAs.binary_accepts {stop : Token} {ts rest : List Token} {lower : List (Level Unit)}
    {e : Expr Unit} (h : AcceptedAs stop ts (.binary lower e)) (hlower : lower <:+ levels)
    (hrest : Stops lower rest) : (binary Reply stop lower (ts ++ rest)).Accepts e rest := by
  cases lower with
  | nil => exact h rest hrest
  | cons level tighter =>
      exact h hlower rest e rest hrest.tighter (binaryTail_accepts_of_stops hrest)

theorem not_startsExpression_symbol {s : Symbol}
    (h : s = .rightParen ∨ s = .semicolon ∨ s = .rightBrace) : ¬startsExpression (.symbol s) := by
  rcases h with rfl | rfl | rfl <;> decide

theorem ReadsAs.starts_call {ts : List Token} {p : ExprPhrase} (h : ReadsAs ts p)
    (hp : ∃ e, p = .call e ∨ p = .primary e) :
    ∃ t rest, ts = t :: rest ∧ t.kind ∉ unaryOperators := by
  have hoperator {k : Kind} (hk : k ∈ unaryOperators) : k = .symbol .bang ∨ k = .symbol .minus := by
    simpa [unaryOperators] using hk
  induction h with
  | literal hvalue =>
      refine ⟨_, _, rfl, fun hk => ?_⟩
      rcases hoperator hk with h | h <;> rw [h] at hvalue <;> cases hvalue
  | name h | this h | grouping h _ _ _ => exact ⟨_, _, rfl, by rw [h]; decide⟩
  | primary _ ih => exact ih ⟨_, .inr rfl⟩
  | call _ _ _ _ ih _ | get _ _ _ ih =>
      obtain ⟨t, rest, rfl, ht⟩ := ih ⟨_, .inl rfl⟩
      exact ⟨t, _, rfl, ht⟩
  | _ => simp at hp

theorem accepts_assignment {equals : Token} {target value e : Expr Unit} {rest : List Token}
    (h : assigned? target value = some e) :
    (assignment Reply equals target value rest).Accepts e rest := by
  unfold assigned? at h
  split at h <;> cases h <;> exact Reply.accepts_pure_iff.mpr ⟨rfl, rfl⟩

/-! ### What each rule accepts -/

section

variable {stop : Token} {tokens after rest : List Token} {value : Expr Unit}

theorem primary_accepts_grouping {l r : Token} {e : Expr Unit} (hl : l.kind = .symbol .leftParen)
    (he : (expression Reply stop tokens).Accepts e (r :: rest))
    (hr : r.kind = .symbol .rightParen) :
    (primary Reply stop (l :: tokens)).Accepts (.grouping e) rest := by
  rw [primary, hl]
  refine Reply.Accepts.andThen he fun _ => ?_
  exact Reply.accepts_map_iff.mpr ⟨r, accepts_take hr, rfl⟩

theorem callTail_accepts_call {l r : Token} {callee : Expr Unit} {es : List (Expr Unit)}
    (hl : l.kind = .symbol .leftParen) (hes : (arguments Reply stop tokens).Accepts es (r :: after))
    (hr : r.kind = .symbol .rightParen)
    (htail : (callTail Reply stop (.call callee r es) after).Accepts value rest) :
    (callTail Reply stop callee (l :: tokens)).Accepts value rest := by
  rw [callTail, if_pos hl]
  refine Reply.Accepts.andThen hes fun _ => ?_
  exact Reply.Accepts.andThen (accepts_take hr) fun _ => htail

theorem callTail_accepts_get {dot name : Token} {object : Expr Unit}
    (hdot : dot.kind = .symbol .dot) (hname : name.kind = .identifier)
    (htail : (callTail Reply stop (.get object name) tokens).Accepts value rest) :
    (callTail Reply stop object (dot :: name :: tokens)).Accepts value rest := by
  rw [callTail, if_neg (by rw [hdot]; decide), if_pos hdot]
  exact Reply.Accepts.andThen (accepts_take hname) fun _ => htail

theorem arguments_accepts_entries {t : Token} {es : List (Expr Unit)} (ht : startsExpression t.kind)
    (hes : (entries Reply stop 0 (t :: tokens)).Accepts es rest) :
    (arguments Reply stop (t :: tokens)).Accepts es rest := by
  have hparen : t.kind ≠ .symbol .rightParen := by
    intro hparen
    rw [hparen] at ht
    exact not_startsExpression_symbol (.inl rfl) ht
  rw [arguments, if_neg hparen]
  exact hes

theorem entries_accepts_last {seen : Nat} {close : Token} {e : Expr Unit}
    (hseen : seen < entryLimit) (he : (expression Reply stop tokens).Accepts e (close :: rest))
    (hclose : close.kind ≠ .symbol .comma) :
    (entries Reply stop seen tokens).Accepts [e] (close :: rest) := by
  rw [entries]
  refine Reply.accepts_reporting_iff.mpr ⟨excess_eq_nil_iff.mpr hseen, ?_⟩
  refine Reply.Accepts.andThen he fun _ => ?_
  dsimp only
  rw [if_neg hclose]
  exact Reply.accepts_pure_iff.mpr ⟨rfl, rfl⟩

theorem entries_accepts_more {seen : Nat} {comma : Token} {e : Expr Unit} {es : List (Expr Unit)}
    (hseen : seen < entryLimit) (he : (expression Reply stop tokens).Accepts e (comma :: after))
    (hcomma : comma.kind = .symbol .comma)
    (hes : (entries Reply stop (seen + 1) after).Accepts es rest) :
    (entries Reply stop seen tokens).Accepts (e :: es) rest := by
  rw [entries]
  refine Reply.accepts_reporting_iff.mpr ⟨excess_eq_nil_iff.mpr hseen, ?_⟩
  refine Reply.Accepts.andThen he fun _ => ?_
  dsimp only
  rw [if_pos hcomma]
  exact Reply.accepts_map_iff.mpr ⟨es, hes, rfl⟩

theorem unary_accepts_call {t : Token} (ht : t.kind ∉ unaryOperators)
    (h : (call Reply stop (t :: tokens)).Accepts value rest) :
    (unary Reply stop (t :: tokens)).Accepts value rest := by
  rw [unary, if_neg ht]
  exact h

theorem binaryTail_accepts_operator {level : Level Unit} {tighter : List (Level Unit)}
    {operator : Token} {left right : Expr Unit} (hoperator : operator.kind ∈ level.operators)
    (hright : (binary Reply stop tighter tokens).Accepts right after)
    (htail : (binaryTail Reply stop level tighter (level.join left operator right) after).Accepts
      value rest) :
    (binaryTail Reply stop level tighter left (operator :: tokens)).Accepts value rest := by
  rw [binaryTail, if_pos hoperator]
  exact Reply.Accepts.andThen hright fun _ => htail

theorem expression_accepts_plain (hvalue : (binary Reply stop levels tokens).Accepts value rest)
    (hequal : ∀ t ∈ rest.head?, t.kind ≠ .symbol .equal) :
    (expression Reply stop tokens).Accepts value rest := by
  rw [expression]
  refine Reply.Accepts.andThen hvalue fun _ => ?_
  cases rest with
  | nil => exact Reply.accepts_pure_iff.mpr ⟨rfl, rfl⟩
  | cons t after =>
      dsimp only
      rw [if_neg (hequal t rfl)]
      exact Reply.accepts_pure_iff.mpr ⟨rfl, rfl⟩

theorem expression_accepts_assignment {equals : Token} {target e : Expr Unit}
    (htarget : (binary Reply stop levels tokens).Accepts target (equals :: after))
    (hequals : equals.kind = .symbol .equal)
    (hvalue : (expression Reply stop after).Accepts value rest)
    (h : assigned? target value = some e) : (expression Reply stop tokens).Accepts e rest := by
  rw [expression]
  refine Reply.Accepts.andThen htarget fun _ => ?_
  dsimp only
  rw [if_pos hequals]
  exact Reply.Accepts.andThen hvalue fun _ => accepts_assignment h

end

theorem accepts_of_readsAs (stop : Token) {ts : List Token} {p : ExprPhrase} (h : ReadsAs ts p) :
    AcceptedAs stop ts p := by
  induction h with
  | literal hkind | name hkind | this hkind =>
      intro rest
      rw [List.singleton_append, primary, hkind]
      exact Reply.accepts_pure_iff.mpr ⟨rfl, rfl⟩
  | @grouping l r ts e hl _ hr ih =>
      intro rest
      rw [List.cons_append, List.append_assoc, List.singleton_append]
      exact primary_accepts_grouping hl (ih (r :: rest) (.of_symbol hr (.inr (.inl rfl)))) hr
  | primary _ ih =>
      intro rest value after htail
      rw [call]
      exact Reply.Accepts.andThen (ih rest) fun _ => htail
  | @call l r ts us callee es _ hl _ hr ih ihArguments =>
      intro rest value after htail
      rw [List.append_assoc, List.cons_append, List.append_assoc, List.singleton_append]
      exact ih _ value after (callTail_accepts_call hl (ihArguments r rest hr) hr htail)
  | get _ hdot hname ih =>
      intro rest value after htail
      rw [List.append_assoc, List.cons_append, List.singleton_append]
      exact ih _ value after (callTail_accepts_get hdot hname htail)
  | noArguments =>
      intro close rest hclose
      rw [List.nil_append, arguments, if_pos hclose]
      exact Reply.accepts_pure_iff.mpr ⟨rfl, rfl⟩
  | arguments hentries hcount ih =>
      intro close rest hclose
      obtain ⟨t, us, rfl, ht⟩ := hentries.starts (by simp)
      exact arguments_accepts_entries ht (ih 0 close rest (by simpa using hcount) hclose)
  | lastEntry _ ih =>
      intro seen close rest hcount hclose
      exact entries_accepts_last hcount (ih (close :: rest) (.of_symbol hclose (.inr (.inl rfl))))
        (by rw [hclose]; decide)
  | entry _ hcomma _ ih ihOthers =>
      intro seen close rest hcount hclose
      rw [List.length_cons] at hcount
      rw [List.append_assoc, List.cons_append]
      exact entries_accepts_more (by omega) (ih _ (.of_symbol hcomma (.inr (.inr rfl)))) hcomma
        (ihOthers _ close rest (by omega) hclose)
  | @operand ts e hcall ih =>
      intro rest hrest
      have haccepts := ih rest e rest (callTail_accepts_of_stops hrest)
      obtain ⟨t, us, rfl, ht⟩ := hcall.starts_call ⟨e, .inl rfl⟩
      exact unary_accepts_call ht haccepts
  | @unary operator ts e hoperator _ ih =>
      intro rest hrest
      rw [List.cons_append, unary, if_pos hoperator]
      exact Reply.accepts_map_iff.mpr ⟨e, ih rest hrest, rfl⟩
  | tightest _ ih =>
      intro rest hrest
      rw [binary]
      exact ih rest hrest
  | @tighter level lower ts e _ ih =>
      intro hlower rest value after hrest htail
      rw [binary]
      exact Reply.Accepts.andThen
        (AcceptedAs.binary_accepts ih ((List.suffix_cons level lower).trans hlower) hrest)
        fun _ => htail
  | @join level lower operator ts us a b _ hoperator _ ihLeft ihRight =>
      intro hlower rest value after hrest htail
      have hright := AcceptedAs.binary_accepts ihRight ((List.suffix_cons level lower).trans hlower)
        hrest
      rw [List.append_assoc, List.cons_append]
      exact ihLeft hlower _ value after (.of_operator hlower hoperator)
        (binaryTail_accepts_operator hoperator hright htail)
  | plain _ ih =>
      intro rest hrest
      exact expression_accepts_plain (AcceptedAs.binary_accepts ih List.suffix_rfl hrest.1) hrest.2
  | assign _ hequals _ hassigned ih ihValue =>
      intro rest hrest
      rw [List.append_assoc, List.cons_append]
      exact expression_accepts_assignment
        (AcceptedAs.binary_accepts ih List.suffix_rfl (.of_equal hequals)) hequals
        (ihValue rest hrest) hassigned

end Lox.Parsing
