import Lox.Parsing.Reply
import Lox.Tree

/-!
The recovery from faults.

A fault inside a declaration ends that declaration alone: it is reported, the tokens up to the
likely start of the next statement are dropped, and reading goes on there.
-/

namespace Lox.Parsing

/-- The words with which a statement starts. -/
def startsStatement : Kind → Bool
  | .keyword k =>
      k ∈ [Keyword.class_, .fun_, .var_, .for_, .if_, .while_, .print_, .return_]
  | _ => false

/-- The tokens from the next likely start of a statement, after a token of kind `previous`. -/
def resume (previous : Kind) : List Token → List Token
  | [] => []
  | t :: rest =>
      if previous = .symbol .semicolon ∨ startsStatement t.kind then t :: rest
      else resume t.kind rest

/-- What is left after a fault at the first of these tokens: that token is always dropped. -/
def synchronize : List Token → List Token
  | [] => []
  | t :: rest => resume t.kind rest

theorem length_resume_le (previous : Kind) (tokens : List Token) :
    (resume previous tokens).length ≤ tokens.length := by
  induction tokens generalizing previous with
  | nil => exact Nat.le_refl _
  | cons t rest ih =>
      unfold resume
      split
      · exact Nat.le_refl _
      · exact Nat.le_succ_of_le (ih t.kind)

theorem length_synchronize_lt {tokens : List Token} {n : Nat} (h : tokens.length ≤ n)
    (hn : 0 < n) : (synchronize tokens).length < n := by
  cases tokens with
  | nil => exact hn
  | cons t rest => exact Nat.lt_of_le_of_lt (length_resume_le t.kind rest) h

/-- What comes of a declaration: its statement, unless it has a fault, and the tokens after it,
which are fewer than before in either case. -/
structure Recovery (Label : Type) (tokens : List Token) where
  statement : Option (Stmt Label)
  rest : List Token
  reports : List Diagnostic
  progress : rest.length < tokens.length

namespace Reply

variable {Label α : Type} {takes : Bool} {tokens : List Token}

/-- The fault that a rule stops at is reported last, and the tokens it would spoil are dropped. -/
@[inline] def recover {t : Token} {rest : List Token} (r : Reply true (t :: rest) (Stmt Label)) :
    Recovery Label (t :: rest) :=
  match r with
  | ⟨.accepted statement rest reports, h⟩ => ⟨some statement, rest, reports, h⟩
  | ⟨.refused fault rest reports, h⟩ =>
      ⟨none, synchronize rest, reports ++ [fault], length_synchronize_lt h (Nat.succ_pos _)⟩

/-- The reply of a rule after a declaration, of which it is given what came. -/
@[inline] def afterDeclaration (declaration : Recovery Label tokens)
    (next : Option (Stmt Label) → (rest : List Token) → rest.length < tokens.length →
      Reply takes rest α) : Reply takes tokens α :=
  match declaration with
  | ⟨statement, rest, reports, progress⟩ =>
      ((next statement rest progress).reporting reports).within (Nat.le_of_lt progress)

end Reply

end Lox.Parsing
