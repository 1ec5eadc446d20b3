import Lox.Proofs.Marks.Rules

namespace Lox.Parsing

variable {stop : Token} {all : List Token}

section

/-- The expression has its tokens in proper parts, and they are of the text. -/
def ExprIn (all : List Token) (e : Expr Unit) : Prop := StandIn all e.marks

/-- Lists of fewer than `n` tokens of the text are read as expressions with proper marks. -/
def YieldsExpressionsBelow (stop : Token) (all : List Token) (n : Nat) : Prop :=
  ∀ tokens : List Token, tokens.length < n → tokens ⊆ all →
    (expression Reply stop tokens).Yields all (ExprIn all)

variable {n : Nat} {tokens : List Token} (hbelow : YieldsExpressionsBelow stop all n)
include hbelow

theorem primary_yields (hlength : tokens.length ≤ n) (htokens : tokens ⊆ all) :
    (primary Reply stop tokens).Yields all (ExprIn all) := by
  unfold primary
  cases tokens with
  | nil => exact .refuse htokens
  | cons t after =>
      obtain ⟨ht, hafter⟩ := List.cons_subset.mp htokens
      dsimp only
      split
      · exact .afterToken t (.pure hafter standIn_nil)
      · split
        · rename_i hname
          exact .afterToken t (.pure hafter (standIn_cons.mpr ⟨⟨hname, ht⟩, standIn_nil⟩))
        · split
          · rename_i hthis
            exact .afterToken t (.pure hafter (standIn_cons.mpr ⟨⟨hthis, ht⟩, standIn_nil⟩))
          · split
            · refine .afterToken t (.andThen (hbelow after hlength hafter) ?_)
              intro inner rest _ hrest hinner
              exact (takeSymbol_yields stop _ _ hrest).map fun _ _ => hinner
            · exact .refuse htokens

theorem entries_yield (seen : Nat) (tokens : List Token) (hlength : tokens.length < n)
    (htokens : tokens ⊆ all) :
    (entries Reply stop seen tokens).Yields all fun es => StandIn all (Expr.marksAll es) := by
  unfold entries
  refine .reporting _ (.andThen (hbelow tokens hlength htokens) ?_)
  intro entry rest hle hrest hentry
  have hlast : StandIn all (Expr.marksAll [entry]) := standIn_append.mpr ⟨hentry, standIn_nil⟩
  cases rest with
  | nil => exact .pure hrest hlast
  | cons comma after =>
      dsimp only
      split
      · have hafter : after.length < tokens.length := by
          simp only [List.length_cons, Bool.toNat_true] at hle
          omega
        refine .afterToken comma (.map (entries_yield (seen + 1) after
          (Nat.lt_trans hafter hlength) (List.subset_of_cons_subset hrest)) ?_)
        intro es hes
        exact standIn_append.mpr ⟨hentry, hes⟩
      · exact .pure hrest hlast
termination_by tokens.length

theorem arguments_yield (hlength : tokens.length < n) (htokens : tokens ⊆ all) :
    (arguments Reply stop tokens).Yields all fun es => StandIn all (Expr.marksAll es) := by
  have hentries := entries_yield hbelow 0 tokens hlength htokens
  unfold arguments
  cases tokens with
  | nil => exact hentries.relax
  | cons t after =>
      dsimp only
      split
      · exact .pure htokens standIn_nil
      · exact hentries.relax

theorem callTail_yields {callee : Expr Unit} (hcallee : ExprIn all callee) (tokens : List Token)
    (hlength : tokens.length < n) (htokens : tokens ⊆ all) :
    (callTail Reply stop callee tokens).Yields all (ExprIn all) := by
  unfold callTail
  cases tokens with
  | nil => exact .pure htokens hcallee
  | cons t after =>
      have hafter := List.subset_of_cons_subset htokens
      have hlt : after.length < n := Nat.lt_of_succ_lt hlength
      dsimp only
      split
      · refine .afterToken t (.andThen (arguments_yield hbelow hlt hafter) ?_)
        intro es rest hle hrest hes
        refine .andThen (takeSymbol_yields stop _ _ hrest) ?_
        intro paren rest' hle' hrest' _
        have hlt' : rest'.length < after.length := by
          simp only [Bool.toNat_true, Bool.toNat_false] at hle hle'
          omega
        have hcall : ExprIn all (.call callee paren es) := standIn_append.mpr ⟨hcallee, hes⟩
        exact callTail_yields hcall rest' (Nat.lt_trans hlt' hlt) hrest'
      · split
        · refine .afterToken t (.andThen (takeName_yields stop _ hafter) ?_)
          intro name rest hle hrest hname
          have hlt' : rest.length < after.length := by
            simp only [Bool.toNat_true] at hle
            omega
          have hget : ExprIn all (.get callee name) := standIn_cons.mpr ⟨hname, hcallee⟩
          exact callTail_yields hget rest (Nat.lt_trans hlt' hlt) hrest
        · exact .pure htokens hcallee
termination_by tokens.length
decreasing_by
  all_goals
    subst_vars
    simp only [List.length_cons]
    omega

theorem call_yields (hlength : tokens.length ≤ n) (htokens : tokens ⊆ all) :
    (call Reply stop tokens).Yields all (ExprIn all) := by
  unfold call
  refine .andThen (primary_yields hbelow hlength htokens) ?_
  intro callee rest hle hrest hcallee
  refine callTail_yields hbelow hcallee rest ?_ hrest
  simp only [Bool.toNat_true] at hle
  omega

theorem unary_yields (tokens : List Token) (hlength : tokens.length ≤ n)
    (htokens : tokens ⊆ all) : (unary Reply stop tokens).Yields all (ExprIn all) := by
  unfold unary
  cases tokens with
  | nil => exact call_yields hbelow hlength htokens
  | cons operator after =>
      obtain ⟨hmem, hafter⟩ := List.cons_subset.mp htokens
      dsimp only
      split
      · rename_i hoperator
        refine .afterToken operator
          (.map (unary_yields after (Nat.le_of_succ_le hlength) hafter) ?_)
        intro operand hoperand
        exact standIn_cons.mpr ⟨⟨hoperator, hmem⟩, hoperand⟩
      · exact call_yields hbelow hlength htokens
termination_by tokens.length

omit hbelow in
theorem exprIn_join {level : Level Unit} (hlevel : level ∈ levels) {left right : Expr Unit}
    {operator : Token} (hoperator : operator.kind ∈ level.operators) (hmem : operator ∈ all)
    (hleft : ExprIn all left) (hright : ExprIn all right) :
    ExprIn all (level.join left operator right) := by
  have hboth : StandIn all (left.marks ++ right.marks) := standIn_append.mpr ⟨hleft, hright⟩
  simp only [levels, List.mem_cons, List.not_mem_nil, or_false] at hlevel
  rcases hlevel with rfl | rfl | rfl | rfl | rfl | rfl
  · exact standIn_cons.mpr ⟨⟨(by decide : _ ⊆ logicalOperators) hoperator, hmem⟩, hboth⟩
  · exact standIn_cons.mpr ⟨⟨(by decide : _ ⊆ logicalOperators) hoperator, hmem⟩, hboth⟩
  all_goals exact standIn_cons.mpr ⟨⟨(by decide : _ ⊆ binaryOperators) hoperator, hmem⟩, hboth⟩

omit hbelow in
theorem binaryTail_yields {level : Level Unit} {tighter : List (Level Unit)}
    (hlevel : level ∈ levels)
    (hoperand : ∀ tokens : List Token, tokens.length ≤ n → tokens ⊆ all →
      (binary Reply stop tighter tokens).Yields all (ExprIn all))
    {left : Expr Unit} (hleft : ExprIn all left) (tokens : List Token)
    (hlength : tokens.length < n) (htokens : tokens ⊆ all) :
    (binaryTail Reply stop level tighter left tokens).Yields all (ExprIn all) := by
  unfold binaryTail
  cases tokens with
  | nil => exact .pure htokens hleft
  | cons operator after =>
      obtain ⟨hmem, hafter⟩ := List.cons_subset.mp htokens
      have hlt : after.length < n := Nat.lt_of_succ_lt hlength
      dsimp only
      split
      · rename_i hoperator
        refine .afterToken operator (.andThen (hoperand after (Nat.le_of_lt hlt) hafter) ?_)
        intro right rest hle hrest hright
        have hlt' : rest.length < after.length := by
          simp only [Bool.toNat_true] at hle
          omega
        exact binaryTail_yields hlevel hoperand (exprIn_join hlevel hoperator hmem hleft hright)
          rest (Nat.lt_trans hlt' hlt) hrest
      · exact .pure htokens hleft
termination_by tokens.length
decreasing_by
  subst_vars
  simp only [List.length_cons]
  omega

theorem binary_yields {some : List (Level Unit)} (hsome : some ⊆ levels) (tokens : List Token)
    (hlength : tokens.length ≤ n) (htokens : tokens ⊆ all) :
    (binary Reply stop some tokens).Yields all (ExprIn all) := by
  induction some generalizing tokens with
  | nil =>
      rw [binary]
      exact unary_yields hbelow tokens hlength htokens
  | cons level tighter ih =>
      obtain ⟨hlevel, htighter⟩ := List.cons_subset.mp hsome
      rw [binary]
      refine .andThen (ih htighter tokens hlength htokens) ?_
      intro left rest hle hrest hleft
      refine binaryTail_yields hlevel (ih htighter) hleft rest ?_ hrest
      simp only [Bool.toNat_true] at hle
      omega

end

/-- Only names and properties are assigned to. -/
theorem assignment_yields (equals : Token) {target value : Expr Unit} {tokens : List Token}
    (htarget : ExprIn all target) (hvalue : ExprIn all value) (htokens : tokens ⊆ all) :
    (assignment Reply equals target value tokens).Yields all (ExprIn all) := by
  unfold assignment
  split
  · obtain ⟨hname, -⟩ := standIn_cons.mp htarget
    exact .pure htokens (standIn_cons.mpr ⟨hname, hvalue⟩)
  · obtain ⟨hname, hobject⟩ := standIn_cons.mp htarget
    exact .pure htokens (standIn_cons.mpr ⟨hname, standIn_append.mpr ⟨hobject, hvalue⟩⟩)
  · exact .reporting _ (.pure htokens htarget)

theorem expression_yields (stop : Token) (tokens : List Token) (htokens : tokens ⊆ all) :
    (expression Reply stop tokens).Yields all (ExprIn all) := by
  have hbelow : YieldsExpressionsBelow stop all tokens.length := fun shorter _ hshorter =>
    expression_yields stop shorter hshorter
  rw [expression]
  refine .andThen (binary_yields hbelow (List.Subset.refl _) tokens (Nat.le_refl _) htokens) ?_
  intro target rest hle hrest htarget
  cases rest with
  | nil => exact .pure hrest htarget
  | cons equals after =>
      dsimp only
      split
      · have hafter : after.length < tokens.length := by
          simp only [List.length_cons, Bool.toNat_true] at hle
          omega
        refine .afterToken equals
          (.andThen (hbelow after hafter (List.subset_of_cons_subset hrest)) ?_)
        intro value rest' _ hrest' hvalue
        exact assignment_yields equals htarget hvalue hrest'
      · exact .pure hrest htarget
termination_by tokens.length

end Lox.Parsing
