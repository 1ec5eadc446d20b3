import Lox.Proofs.Syntax.StatementComplete

namespace Lox

/-- A semicolon is missing, or the expression before it. -/
inductive SyntaxFault.OfGap : SyntaxFault → Prop
  | semicolon (place : Place) : OfGap (.missing .semicolon place)
  | value : OfGap .missingExpression

namespace Parsing

variable {α β : Type} {takes takes' : Bool} {stop : Token} {tokens rest : List Token}
  {fault : Diagnostic}

/-- The reply refuses with this fault, leaves these tokens and reports nothing else. -/
def Reply.Refuses (r : Reply takes tokens α) (fault : Diagnostic) (rest : List Token) : Prop :=
  r.val = .refused fault rest []

namespace Reply.Refuses

variable {r : Reply takes tokens α}

theorem refuse : (Reply.refuse fault : Reply takes tokens α).Refuses fault tokens := rfl

theorem andThen {next : α → (rest : List Token) → rest.length + takes.toNat ≤ tokens.length →
      Reply takes' rest β} (h : r.Refuses fault rest) : (r.andThen next).Refuses fault rest := by
  obtain ⟨outcome, hfits⟩ := r
  cases h
  rfl

theorem map {f : α → β} (h : r.Refuses fault rest) : (r.map f).Refuses fault rest := by
  obtain ⟨outcome, hfits⟩ := r
  cases h
  rfl

theorem relax (h : r.Refuses fault rest) : r.relax.Refuses fault rest := h

end Reply.Refuses

theorem Reply.Accepts.andThen_refuses {first : Reply takes tokens α}
    {next : α → (rest : List Token) → rest.length + takes.toNat ≤ tokens.length →
      Reply takes' rest β} {value : α} {after : List Token} (hfirst : first.Accepts value after)
    (hnext : ∀ h, (next value after h).Refuses fault rest) :
    (first.andThen next).Refuses fault rest := by
  obtain ⟨outcome, hfits⟩ := first
  cases hfirst
  have hrefused := hnext hfits
  rw [Refuses] at hrefused
  rw [Refuses, Reply.andThen]
  dsimp only
  rw [hrefused]
  rfl

/-- The end of the tokens, a closing brace, or a word that starts a statement. -/
def Follows (tokens : List Token) : Prop :=
  ∀ t ∈ tokens.head?, t.kind = .symbol .rightBrace ∨ startsStatement t.kind

namespace Follows

theorem not_startsExpression (h : Follows tokens) :
    ∀ t ∈ tokens.head?, ¬startsExpression t.kind := by
  intro t ht hexpression
  rcases h t ht with hbrace | hword
  · rw [hbrace] at hexpression
    exact absurd hexpression (by decide)
  · exact not_startsStatement_of_startsExpression hexpression hword

theorem ne_symbol (h : Follows tokens) {s : Symbol} (hs : s ≠ .rightBrace) :
    ∀ t ∈ tokens.head?, t.kind ≠ .symbol s := by
  intro t ht hkind
  rcases h t ht with hbrace | hword
  · exact hs (Kind.symbol.inj (hkind.symm.trans hbrace))
  · rw [hkind] at hword
    cases hword

theorem ends (h : Follows tokens) : Ends tokens := by
  constructor
  · intro t ht hcontinues
    rcases h t ht with hbrace | hword
    · rw [hbrace] at hcontinues
      simp [continues, levels] at hcontinues
    · cases hkind : t.kind with
      | keyword w =>
          rw [hkind] at hcontinues hword
          cases w <;> simp [continues, levels, startsStatement] at hcontinues hword
      | _ =>
          rw [hkind] at hword
          cases hword
  · exact h.ne_symbol (by decide)

theorem noElse (h : Follows tokens) : NoElse tokens := by
  intro t ht hkind
  rcases h t ht with hbrace | hword
  · cases hkind.symm.trans hbrace
  · rw [hkind] at hword
    cases hword

end Follows

section

variable (h : ∀ t ∈ tokens.head?, ¬startsExpression t.kind)
include h

theorem primary_refuses :
    (primary Reply stop tokens).Refuses
      (.syntactic (here stop tokens) .missingExpression) tokens := by
  unfold primary
  cases tokens with
  | nil => exact .refuse
  | cons t after =>
      have ht := h t rfl
      simp only [startsExpression, Bool.or_eq_true, decide_eq_true_eq, not_or] at ht
      obtain ⟨⟨⟨⟨hliteral, hname⟩, hthis⟩, hparen⟩, -⟩ := ht
      have hnone : literal? t.kind = none := by
        rwa [Option.not_isSome_iff_eq_none] at hliteral
      dsimp only
      rw [if_neg hname, if_neg hthis, if_neg hparen]
      split
      · rename_i hsome
        rw [hnone] at hsome
        cases hsome
      · exact .refuse

theorem unary_refuses :
    (unary Reply stop tokens).Refuses
      (.syntactic (here stop tokens) .missingExpression) tokens := by
  have hcall :
      (call Reply stop tokens).Refuses
        (.syntactic (here stop tokens) .missingExpression) tokens := by
    rw [call]
    exact (primary_refuses h).andThen
  unfold unary
  cases tokens with
  | nil => exact hcall
  | cons t after =>
      have ht := h t rfl
      simp only [startsExpression, Bool.or_eq_true, decide_eq_true_eq, not_or] at ht
      dsimp only
      rw [if_neg ht.2]
      exact hcall

theorem expression_refuses :
    (expression Reply stop tokens).Refuses
      (.syntactic (here stop tokens) .missingExpression) tokens := by
  have hbinary : ∀ levels, (binary Reply stop levels tokens).Refuses
      (.syntactic (here stop tokens) .missingExpression) tokens := by
    intro levels
    induction levels with
    | nil =>
        rw [binary]
        exact unary_refuses h
    | cons level tighter ih =>
        rw [binary]
        exact ih.andThen
  rw [expression]
  exact (hbinary levels).andThen

end

theorem takeSymbol_refuses {s : Symbol} {place : Place}
    (h : ∀ t ∈ tokens.head?, t.kind ≠ .symbol s) :
    (takeSymbol Reply stop s place tokens).Refuses
      (.syntactic (here stop tokens) (.missing s place)) tokens := by
  unfold takeSymbol take
  cases tokens with
  | nil => exact .refuse
  | cons t after =>
      dsimp only
      rw [if_neg (h t rfl)]
      exact .refuse

end Parsing

end Lox
