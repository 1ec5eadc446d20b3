import Lox.Parsing.Statement
import Mathlib.Data.List.Basic

/-!
How a rule goes through the tokens.

A rule takes tokens one by one, has complaints that do not stop it, and leaves whole declarations to
`declaration`. A rule that refuses tells a fault that stops it, at the token that it came to. There
is a lemma for each way to build a reply.
-/

namespace Lox

/-- The faults that stop a rule. After the others reading goes on. -/
def SyntaxFault.Fatal : SyntaxFault → Prop
  | missingName _ | missing _ _ | missingExpression => True
  | missingEnd | tooManyParameters | tooManyArguments | invalidTarget => False

/-- A rule reports the fault and goes on. -/
def SyntaxFault.Lenient : SyntaxFault → Prop
  | tooManyParameters | tooManyArguments | invalidTarget => True
  | missingName _ | missing _ _ | missingExpression | missingEnd => False

namespace Parsing

/-- A rule that has `tokens` before it has come to `rest` with these reports. It has read the tokens
in between, some of them as declarations, each of which began with fewer than `limit` tokens before
it. Of the reports those that are not of a declaration are complaints. -/
inductive Passage (stop : Token) (limit : Nat) :
    List Token → List Token → List Diagnostic → Prop
  | refl {tokens : List Token} : Passage stop limit tokens tokens []
  | token {t : Token} {tokens rest : List Token} {reports : List Diagnostic}
      (h : Passage stop limit tokens rest reports) : Passage stop limit (t :: tokens) rest reports
  | complaint {t : Token} {fault : SyntaxFault} {tokens rest : List Token}
      {reports : List Diagnostic} (hfault : fault.Lenient)
      (h : Passage stop limit tokens rest reports) :
      Passage stop limit tokens rest (.syntactic t fault :: reports)
  | declaration {t : Token} {tokens rest : List Token} {reports : List Diagnostic}
      (hlimit : (t :: tokens).length < limit)
      (h : Passage stop limit (declaration Reply stop t tokens).rest rest reports) :
      Passage stop limit (t :: tokens) rest ((declaration Reply stop t tokens).reports ++ reports)

variable {α β : Type} {takes takes' : Bool} {stop : Token} {limit : Nat}
  {tokens middle rest : List Token} {reports more : List Diagnostic}

theorem Passage.trans (h : Passage stop limit tokens middle reports)
    (h' : Passage stop limit middle rest more) :
    Passage stop limit tokens rest (reports ++ more) := by
  induction h with
  | refl => exact h'
  | token _ ih => exact .token (ih h')
  | complaint hfault _ ih => exact .complaint hfault (ih h')
  | declaration hlimit _ ih =>
      rw [List.append_assoc]
      exact .declaration hlimit (ih h')

/-- The fault stops a rule that has come to these tokens. -/
def StopsAt (stop : Token) (rest : List Token) (fault : Diagnostic) : Prop :=
  ∃ f : SyntaxFault, f.Fatal ∧ fault = .syntactic (here stop rest) f

/-- The rule has come from `tokens` to what it left. -/
def Outcome.Proceeds (stop : Token) (limit : Nat) (tokens : List Token) : Outcome α → Prop
  | accepted _ rest reports => Passage stop limit tokens rest reports
  | refused fault rest reports => Passage stop limit tokens rest reports ∧ StopsAt stop rest fault

/-- The reply has come from the tokens to what it left. -/
def Reply.Proceeds (stop : Token) (limit : Nat) (r : Reply takes tokens α) : Prop :=
  r.val.Proceeds stop limit tokens

theorem Outcome.Proceeds.after {o : Outcome α} (h : o.Proceeds stop limit middle)
    (hbefore : Passage stop limit tokens middle reports) :
    (o.reporting reports).Proceeds stop limit tokens := by
  cases o with
  | accepted value rest more => exact hbefore.trans h
  | refused fault rest more => exact ⟨hbefore.trans h.1, h.2⟩

namespace Reply.Proceeds

variable {r : Reply takes tokens α}

theorem pure (value : α) : (Reply.pure value : Reply false tokens α).Proceeds stop limit := .refl

theorem refuse {fault : Diagnostic} (h : StopsAt stop tokens fault) :
    (Reply.refuse fault : Reply takes tokens α).Proceeds stop limit :=
  ⟨.refl, h⟩

theorem andThen {next : α → (rest : List Token) → rest.length + takes.toNat ≤ tokens.length →
      Reply takes' rest β} (h : r.Proceeds stop limit)
    (hnext : ∀ v rest hrest, (next v rest hrest).Proceeds stop limit) :
    (r.andThen next).Proceeds stop limit := by
  obtain ⟨outcome, hfits⟩ := r
  cases outcome with
  | refused fault rest reports => exact h
  | accepted v rest reports => exact Outcome.Proceeds.after (hnext v rest hfits) h

theorem map {f : α → β} (h : r.Proceeds stop limit) : (r.map f).Proceeds stop limit := by
  obtain ⟨outcome, hfits⟩ := r
  cases outcome <;> exact h

theorem afterToken (t : Token) (h : r.Proceeds stop limit) :
    (r.afterToken t : Reply takes' (t :: tokens) α).Proceeds stop limit := by
  obtain ⟨outcome, hfits⟩ := r
  cases outcome with
  | accepted value rest reports => exact .token h
  | refused fault rest reports => exact ⟨.token h.1, h.2⟩

theorem relax (h : r.Proceeds stop limit) : r.relax.Proceeds stop limit := h

theorem within {more : List Token} (h : r.Proceeds stop limit)
    (hbefore : Passage stop limit more tokens reports) (hlength : tokens.length ≤ more.length) :
    ((r.reporting reports).within hlength).Proceeds stop limit :=
  Outcome.Proceeds.after h hbefore

theorem reporting (h : r.Proceeds stop limit)
    (hreports : Passage stop limit tokens tokens reports) :
    (r.reporting reports).Proceeds stop limit :=
  Outcome.Proceeds.after h hreports

end Reply.Proceeds

theorem take_proceeds {kind : Kind} {fault : SyntaxFault} (hfault : fault.Fatal)
    (tokens : List Token) : (take Reply stop kind fault tokens).Proceeds stop limit := by
  unfold take
  cases tokens with
  | nil => exact .refuse ⟨fault, hfault, rfl⟩
  | cons t rest =>
      dsimp only
      split
      · exact .afterToken t (.pure t)
      · exact .refuse ⟨fault, hfault, rfl⟩

theorem takeSymbol_proceeds (s : Symbol) (place : Place) (tokens : List Token) :
    (takeSymbol Reply stop s place tokens).Proceeds stop limit :=
  take_proceeds (show SyntaxFault.Fatal (.missing s place) from trivial) tokens

theorem takeName_proceeds (named : Named) (tokens : List Token) :
    (takeName Reply stop named tokens).Proceeds stop limit :=
  take_proceeds (show SyntaxFault.Fatal (.missingName named) from trivial) tokens

theorem excess_passage {fault : SyntaxFault} (hfault : fault.Lenient) (seen : Nat)
    (tokens : List Token) :
    Passage stop limit tokens tokens (excess stop fault seen tokens) := by
  unfold excess
  split
  · exact .complaint hfault .refl
  · exact .refl

end Parsing

end Lox
