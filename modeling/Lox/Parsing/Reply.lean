import Lox.Diagnostic

/-!
What a grammar rule answers.

A rule reads tokens from the front of a list. It accepts with a value, or refuses with the fault
that stopped it; either way it tells how far it came and what it reported on the way. The type of
a reply records that no rule gives back more tokens than it got, and which rules give back fewer
whenever they accept. The recursion of the grammar ends by that.
-/

namespace Lox.Parsing

inductive Outcome (α : Type)
  | accepted (value : α) (rest : List Token) (reports : List Diagnostic)
  | refused (fault : Diagnostic) (rest : List Token) (reports : List Diagnostic)

namespace Outcome

variable {α β : Type}

/-- The outcome leaves at most as many tokens as there were, and fewer if it accepts although it
has to take one. -/
def Fits (takes : Bool) (tokens : List Token) : Outcome α → Prop
  | accepted _ rest _ => rest.length + takes.toNat ≤ tokens.length
  | refused _ rest _ => rest.length ≤ tokens.length

/-- The same outcome where `earlier` had been reported before. -/
def reporting (earlier : List Diagnostic) : Outcome α → Outcome α
  | accepted value rest reports => accepted value rest (earlier ++ reports)
  | refused fault rest reports => refused fault rest (earlier ++ reports)

def map (f : α → β) : Outcome α → Outcome β
  | accepted value rest reports => accepted (f value) rest reports
  | refused fault rest reports => refused fault rest reports

theorem Fits.trans {takes takes' : Bool} {tokens rest : List Token} {o : Outcome α}
    (h : o.Fits takes' rest) (hrest : rest.length + takes.toNat ≤ tokens.length) :
    o.Fits (takes || takes') tokens := by
  have hor : (takes || takes').toNat ≤ takes.toNat + takes'.toNat := by
    cases takes <;> cases takes' <;> decide
  cases o <;> simp only [Fits] at h ⊢ <;> omega

theorem Fits.cons {takes takes' : Bool} {t : Token} {tokens : List Token} {o : Outcome α}
    (h : o.Fits takes tokens) : o.Fits takes' (t :: tokens) := by
  have hone := Bool.toNat_le takes'
  cases o <;> simp only [Fits, List.length_cons] at h ⊢ <;> omega

theorem Fits.within {takes : Bool} {tokens all : List Token} {o : Outcome α}
    (h : o.Fits takes tokens) (hall : tokens.length ≤ all.length) : o.Fits takes all := by
  cases o <;> simp only [Fits] at h ⊢ <;> omega

theorem Fits.relax {takes : Bool} {tokens : List Token} {o : Outcome α}
    (h : o.Fits takes tokens) : o.Fits false tokens := by
  cases o <;> simp only [Fits, Bool.toNat_false] at h ⊢ <;> omega

theorem Fits.reporting {takes : Bool} {tokens : List Token} {o : Outcome α}
    (h : o.Fits takes tokens) (earlier : List Diagnostic) :
    (o.reporting earlier).Fits takes tokens := by
  cases o <;> exact h

theorem Fits.map {takes : Bool} {tokens : List Token} {o : Outcome α}
    (h : o.Fits takes tokens) (f : α → β) : (o.map f).Fits takes tokens := by
  cases o <;> exact h

end Outcome

/-- An outcome on `tokens`; if `takes`, accepting takes a token. -/
def Reply (takes : Bool) (tokens : List Token) (α : Type) : Type :=
  { o : Outcome α // o.Fits takes tokens }

namespace Reply

variable {α β : Type} {takes takes' : Bool} {tokens : List Token}

/-- Accepts without taking a token. -/
def pure (value : α) : Reply false tokens α :=
  ⟨.accepted value tokens [], Nat.le_refl _⟩

def refuse (fault : Diagnostic) : Reply takes tokens α :=
  ⟨.refused fault tokens [], Nat.le_refl _⟩

/-- One rule after another. The second one is given what the first one left. -/
@[inline] def andThen (first : Reply takes tokens α)
    (next : α → (rest : List Token) → rest.length + takes.toNat ≤ tokens.length →
      Reply takes' rest β) : Reply (takes || takes') tokens β :=
  match first with
  | ⟨.refused fault rest reports, h⟩ => ⟨.refused fault rest reports, h⟩
  | ⟨.accepted value rest reports, h⟩ =>
      let second := next value rest h
      ⟨second.val.reporting reports, (second.property.reporting reports).trans h⟩

@[inline] def map (f : α → β) (r : Reply takes tokens α) : Reply takes tokens β :=
  ⟨r.val.map f, r.property.map f⟩

/-- The reply to `t :: tokens` of a rule that takes `t` and leaves the rest to `r`. -/
@[inline] def afterToken (t : Token) (r : Reply takes tokens α) : Reply takes' (t :: tokens) α :=
  ⟨r.val, r.property.cons⟩

@[inline] def reporting (earlier : List Diagnostic) (r : Reply takes tokens α) :
    Reply takes tokens α :=
  ⟨r.val.reporting earlier, r.property.reporting earlier⟩

/-- The reply to more tokens of a rule that saw only the last of them. -/
@[inline] def within {all : List Token} (r : Reply takes tokens α)
    (h : tokens.length ≤ all.length) : Reply takes all α :=
  ⟨r.val, r.property.within h⟩

/-- A reply that need not take a token. -/
@[inline] def relax (r : Reply takes tokens α) : Reply false tokens α :=
  ⟨r.val, r.property.relax⟩

end Reply

/-- The token at which a rule that meets `tokens` finds fault: the first one, or the one that
closes the program. -/
def here (stop : Token) (tokens : List Token) : Token := tokens.head?.getD stop

/-- The most entries that a list of parameters or of arguments may have. -/
def entryLimit : Nat := 255

/-- What is reported before an entry when there are `seen` before it. -/
def excess (stop : Token) (fault : SyntaxFault) (seen : Nat) (tokens : List Token) :
    List Diagnostic :=
  if entryLimit ≤ seen then [.syntactic (here stop tokens) fault] else []

end Lox.Parsing
