import Lox.Proofs.Recovery.Omissions

/-!
Programs with a `while` for each `for`.

A `for` and its clauses are replaced where they stand in the text. How far the clauses and the body
reach is what the rules of the grammar take for them.
-/

namespace Lox

def Token.word (k : Keyword) : Token := ⟨.keyword k, k.spelling, 1⟩

namespace Parsing

variable {α : Type} {takes : Bool} {tokens : List Token}

/-- Where a rule that accepts divides the tokens. -/
structure Split (tokens : List Token) where
  taken : List Token
  rest : List Token
  taken_le : taken.length ≤ tokens.length
  rest_le : rest.length ≤ tokens.length

def Split.after (taken rest : List Token) : Split (taken ++ rest) :=
  ⟨taken, rest, (List.prefix_append taken rest).length_le,
    (List.suffix_append taken rest).length_le⟩

def Reply.split? (r : Reply takes tokens α) : Option (Split tokens) :=
  match r with
  | ⟨.accepted _ rest _, h⟩ =>
      some ⟨tokens.take (tokens.length - rest.length), rest, List.length_take_le' _ _,
        Nat.le_of_add_right_le h⟩
  | ⟨.refused _ _ _, _⟩ => none

/-- The clauses of a `for`, its body, and the tokens after it. The semicolon after the first clause
is part of that clause. -/
structure Loop (tokens : List Token) where
  initial : List Token
  condition : List Token
  increment : List Token
  body : List Token
  rest : List Token
  body_le : body.length ≤ tokens.length
  rest_le : rest.length ≤ tokens.length

/-- The loop of which these are the tokens after the word `for`. -/
def loop? (tokens : List Token) : Option (Loop tokens) := do
  let stop := Token.endOfInput 1
  let opening ← (takeSymbol Reply stop .leftParen (.afterWord .for_) tokens).split?
  let initial ← (forInitial Reply stop opening.rest).split?
  let condition ← (optionalExpression Reply stop .semicolon initial.rest).split?
  let semicolon ← (takeSymbol Reply stop .semicolon .afterLoopCondition condition.rest).split?
  let increment ← (optionalExpression Reply stop .rightParen semicolon.rest).split?
  let closing ← (takeSymbol Reply stop .rightParen .afterForClauses increment.rest).split?
  let body ← (statement Reply stop closing.rest).split?
  have hclauses : closing.rest.length ≤ tokens.length :=
    Nat.le_trans closing.rest_le <| Nat.le_trans increment.rest_le <|
      Nat.le_trans semicolon.rest_le <| Nat.le_trans condition.rest_le <|
      Nat.le_trans initial.rest_le opening.rest_le
  some ⟨initial.taken, condition.taken, increment.taken, body.taken, body.rest,
    Nat.le_trans body.taken_le hclauses, Nat.le_trans body.rest_le hclauses⟩

def braced (ts : List Token) : List Token := .mark .leftBrace :: (ts ++ [.mark .rightBrace])

/-- Where no condition is given it is `true`. -/
def givenCondition (condition : List Token) : List Token :=
  if condition = [] then [.word .true_] else condition

/-- The body of a loop, in braces if an increment comes after it. -/
def wholeBody (increment body : List Token) : List Token :=
  if increment = [] then body else braced (body ++ (increment ++ [.mark .semicolon]))

/-- The `while` for a `for` with these clauses, in braces if there is more before it than a
semicolon. -/
def whileLoop (initial condition increment body : List Token) : List Token :=
  let loop := .word .while_ :: .mark .leftParen ::
    (givenCondition condition ++ .mark .rightParen :: wholeBody increment body)
  if initial.length = 1 then loop else braced (initial ++ loop)

/-- The tokens with each `for`, those inside the bodies of others included, replaced by a `while`.
A word that no loop follows stays as it is. -/
def withoutFor (tokens : List Token) : List Token :=
  match tokens with
  | [] => []
  | t :: tokens =>
      if t.kind = .keyword .for_ then
        match loop? tokens with
        | some loop =>
            have := loop.body_le
            have := loop.rest_le
            whileLoop loop.initial loop.condition loop.increment (withoutFor loop.body) ++
              withoutFor loop.rest
        | none => t :: withoutFor tokens
      else t :: withoutFor tokens
termination_by tokens.length
decreasing_by
  all_goals
    simp only [List.length_cons]
    omega

/-- A token of this kind stays where it is, and goes on with the program. -/
def isKept : Kind → Bool
  | .keyword .for_ | .endOfInput => false
  | _ => true

@[simp] theorem withoutFor_nil : withoutFor [] = [] := by
  rw [withoutFor]

theorem withoutFor_cons {t : Token} (ht : t.kind ≠ .keyword .for_) (tokens : List Token) :
    withoutFor (t :: tokens) = t :: withoutFor tokens := by
  rw [withoutFor, if_neg ht]

theorem Reply.Accepts.split?_eq {ts rest : List Token} {r : Reply takes (ts ++ rest) α} {value : α}
    (h : r.Accepts value rest) : r.split? = some (.after ts rest) := by
  obtain ⟨o, ho⟩ := r
  cases h
  simp [Reply.split?, Split.after]

theorem split?_takeSymbol {stop t : Token} {sym : Symbol} {place : Place} {rest : List Token}
    (h : t.kind = .symbol sym) :
    (takeSymbol Reply stop sym place (t :: rest)).split? = some (.after [t] rest) :=
  Reply.Accepts.split?_eq (show (takeSymbol Reply stop sym place ([t] ++ rest)).Accepts t rest from
    accepts_take h)

section

variable {word l semicolon r : Token} {is cs ns us rest : List Token}
  {initial : Option (Stmt Unit)} {condition increment : Option (Expr Unit)} {closed : Bool}
  {body : Stmt Unit} (hl : l.kind = .symbol .leftParen) (hinitial : ReadsAsInitial is initial)
  (hcondition : ReadsAsOption cs condition) (hsemicolon : semicolon.kind = .symbol .semicolon)
  (hincrement : ReadsAsOption ns increment) (hr : r.kind = .symbol .rightParen)
  (hbody : ReadsAsStmt us (.statement closed body)) (hrest : closed = false → NoElse rest)
include hl hinitial hcondition hsemicolon hincrement hr hbody hrest

theorem loop?_eq :
    loop? (l :: (is ++ (cs ++ semicolon :: (ns ++ r :: (us ++ rest))))) =
      some ⟨is, cs, ns, us, rest, by simp; omega, by simp; omega⟩ := by
  have hstatement := accepts_of_readsAsStmt (.endOfInput 1) hbody rest hrest
  simp only [loop?, split?_takeSymbol hl, (forInitial_accepts hinitial).split?_eq,
    (optionalExpression_accepts hcondition (.inr rfl) hsemicolon).split?_eq,
    split?_takeSymbol hsemicolon,
    (optionalExpression_accepts hincrement (.inl rfl) hr).split?_eq, split?_takeSymbol hr,
    hstatement.split?_eq, Split.after, Option.bind_eq_bind, Option.bind_some]

/-- A loop is replaced as a whole, and what stands after it by itself. -/
theorem withoutFor_for (hword : word.kind = .keyword .for_) :
    withoutFor (word :: l :: (is ++ (cs ++ semicolon :: (ns ++ r :: (us ++ rest))))) =
      whileLoop is cs ns (withoutFor us) ++ withoutFor rest := by
  have hloop := loop?_eq hl hinitial hcondition hsemicolon hincrement hr hbody hrest
  rw [withoutFor, if_pos hword, hloop]

end

end Parsing

end Lox
