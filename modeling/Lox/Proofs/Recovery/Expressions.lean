import Lox.Proofs.Recovery.Passages

namespace Lox.Parsing

variable {stop : Token} {limit : Nat} {tokens : List Token}

theorem assignment_proceeds (equals : Token) (target value : Expr Unit) (tokens : List Token) :
    (assignment Reply equals target value tokens).Proceeds stop limit := by
  unfold assignment
  split
  · exact .pure _
  · exact .pure _
  · exact .reporting (.pure _) (.complaint trivial .refl)

section

/-- Lists of fewer than `n` tokens are read as expressions in this way. -/
def ExpressionsProceedBelow (stop : Token) (limit n : Nat) : Prop :=
  ∀ tokens : List Token, tokens.length < n → (expression Reply stop tokens).Proceeds stop limit

variable {n : Nat} (hbelow : ExpressionsProceedBelow stop limit n)
include hbelow

theorem primary_proceeds (hlength : tokens.length ≤ n) :
    (primary Reply stop tokens).Proceeds stop limit := by
  have hmissing : ∀ tokens,
      StopsAt stop tokens (.syntactic (here stop tokens) .missingExpression) :=
    fun _ => ⟨.missingExpression, trivial, rfl⟩
  unfold primary
  cases tokens with
  | nil => exact .refuse (hmissing [])
  | cons t after =>
      dsimp only
      split
      · exact .afterToken t (.pure _)
      · split
        · exact .afterToken t (.pure _)
        · split
          · exact .afterToken t (.pure _)
          · split
            · refine .afterToken t (.andThen (hbelow after hlength) fun inner rest _ => ?_)
              exact (takeSymbol_proceeds _ _ rest).map
            · exact .refuse (hmissing (t :: after))

theorem entries_proceed (seen : Nat) (tokens : List Token) (hlength : tokens.length < n) :
    (entries Reply stop seen tokens).Proceeds stop limit := by
  unfold entries
  have hexcess : SyntaxFault.Lenient .tooManyArguments := trivial
  refine .reporting (.andThen (hbelow tokens hlength) ?_) (excess_passage hexcess seen tokens)
  intro entry rest hle
  cases rest with
  | nil => exact .pure _
  | cons comma after =>
      dsimp only
      split
      · have hafter : after.length < tokens.length := by
          simp only [List.length_cons, Bool.toNat_true] at hle
          omega
        exact .afterToken comma
          (entries_proceed (seen + 1) after (Nat.lt_trans hafter hlength)).map
      · exact .pure _
termination_by tokens.length

theorem arguments_proceed (hlength : tokens.length < n) :
    (arguments Reply stop tokens).Proceeds stop limit := by
  have hentries := entries_proceed hbelow 0 tokens hlength
  unfold arguments
  cases tokens with
  | nil => exact hentries.relax
  | cons t after =>
      dsimp only
      split
      · exact .pure _
      · exact hentries.relax

theorem callTail_proceeds (callee : Expr Unit) (tokens : List Token) (hlength : tokens.length < n) :
    (callTail Reply stop callee tokens).Proceeds stop limit := by
  unfold callTail
  cases tokens with
  | nil => exact .pure _
  | cons t after =>
      have hlt : after.length < n := Nat.lt_of_succ_lt hlength
      dsimp only
      split
      · refine .afterToken t (.andThen (arguments_proceed hbelow hlt) fun es rest hle => ?_)
        refine .andThen (takeSymbol_proceeds _ _ rest) fun paren rest' hle' => ?_
        have hlt' : rest'.length < after.length := by
          simp only [Bool.toNat_true, Bool.toNat_false] at hle hle'
          omega
        exact callTail_proceeds _ rest' (Nat.lt_trans hlt' hlt)
      · split
        · refine .afterToken t (.andThen (takeName_proceeds _ after) fun name rest hle => ?_)
          have hlt' : rest.length < after.length := by
            simp only [Bool.toNat_true] at hle
            omega
          exact callTail_proceeds _ rest (Nat.lt_trans hlt' hlt)
        · exact .pure _
termination_by tokens.length
decreasing_by
  all_goals
    subst_vars
    simp only [List.length_cons]
    omega

theorem call_proceeds (hlength : tokens.length ≤ n) :
    (call Reply stop tokens).Proceeds stop limit := by
  unfold call
  refine .andThen (primary_proceeds hbelow hlength) fun callee rest hle => ?_
  refine callTail_proceeds hbelow callee rest ?_
  simp only [Bool.toNat_true] at hle
  omega

theorem unary_proceeds (tokens : List Token) (hlength : tokens.length ≤ n) :
    (unary Reply stop tokens).Proceeds stop limit := by
  unfold unary
  cases tokens with
  | nil => exact call_proceeds hbelow hlength
  | cons operator after =>
      dsimp only
      split
      · exact .afterToken operator (unary_proceeds after (Nat.le_of_succ_le hlength)).map
      · exact call_proceeds hbelow hlength
termination_by tokens.length

omit hbelow in
theorem binaryTail_proceeds {level : Level Unit} {tighter : List (Level Unit)}
    (hoperand : ∀ tokens : List Token, tokens.length ≤ n →
      (binary Reply stop tighter tokens).Proceeds stop limit)
    (left : Expr Unit) (tokens : List Token) (hlength : tokens.length < n) :
    (binaryTail Reply stop level tighter left tokens).Proceeds stop limit := by
  unfold binaryTail
  cases tokens with
  | nil => exact .pure _
  | cons operator after =>
      have hlt : after.length < n := Nat.lt_of_succ_lt hlength
      dsimp only
      split
      · refine .afterToken operator
          (.andThen (hoperand after (Nat.le_of_lt hlt)) fun right rest hle => ?_)
        have hlt' : rest.length < after.length := by
          simp only [Bool.toNat_true] at hle
          omega
        exact binaryTail_proceeds hoperand _ rest (Nat.lt_trans hlt' hlt)
      · exact .pure _
termination_by tokens.length
decreasing_by
  subst_vars
  simp only [List.length_cons]
  omega

theorem binary_proceeds (levels : List (Level Unit)) (tokens : List Token)
    (hlength : tokens.length ≤ n) :
    (binary Reply stop levels tokens).Proceeds stop limit := by
  induction levels generalizing tokens with
  | nil =>
      rw [binary]
      exact unary_proceeds hbelow tokens hlength
  | cons level tighter ih =>
      rw [binary]
      refine .andThen (ih tokens hlength) fun left rest hle => ?_
      refine binaryTail_proceeds ih left rest ?_
      simp only [Bool.toNat_true] at hle
      omega

end

theorem expression_proceeds (tokens : List Token) :
    (expression Reply stop tokens).Proceeds stop limit := by
  have hbelow : ExpressionsProceedBelow stop limit tokens.length :=
    fun shorter _ => expression_proceeds shorter
  rw [expression]
  refine .andThen (binary_proceeds hbelow _ tokens (Nat.le_refl _)) fun target rest hle => ?_
  cases rest with
  | nil => exact .pure _
  | cons equals after =>
      dsimp only
      split
      · have hafter : after.length < tokens.length := by
          simp only [List.length_cons, Bool.toNat_true] at hle
          omega
        refine .afterToken equals (.andThen (hbelow after hafter) fun value rest _ => ?_)
        exact assignment_proceeds equals target value rest
      · exact .pure _
termination_by tokens.length

end Lox.Parsing
