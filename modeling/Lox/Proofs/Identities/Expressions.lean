import Lox.Proofs.Identities.Rules

namespace Lox.Issuing

open Parsing

variable {first : NodeId}

/-- The level joins operands as the plain one does, and refers to what they refer to. -/
structure LevelFollows (level : Level NodeId) (plain : Level Unit) : Prop where
  operators : level.operators = plain.operators
  shape : ∀ left operator right,
    (level.join left operator right).shape = plain.join left.shape operator right.shape
  references : ∀ left operator right,
    (level.join left operator right).references = left.references ++ right.references

theorem levels_follow : List.Forall₂ LevelFollows levels levels := by
  simp only [levels, List.forall₂_cons, List.Forall₂.nil, and_true]
  refine ⟨?_, ?_, ?_, ?_, ?_, ?_⟩ <;>
    exact ⟨rfl, fun _ _ _ => rfl, fun _ _ _ => rfl⟩

theorem assignment_follows (equals : Token) (target value : Expr NodeId) (tokens : List Token) :
    (assignment (Rule first) equals target value tokens).Follows
      Expr.shape Expr.references (target.references ++ value.references)
      (assignment Reply equals target.shape value.shape tokens) := by
  have hkept : target.references.Subperm (target.references ++ value.references) :=
    (List.sublist_append_left _ _).subperm
  cases target with
  | var node name =>
      change Rule.Follows _ _ _ (Rule.build name fun node => Expr.assign node name value)
        (Reply.pure (Expr.assign () name value.shape))
      refine .build (fun _ => rfl) fun n => ?_
      exact (List.perm_append_singleton _ _).symm.subperm.trans
        ((List.sublist_append_right _ _).subperm.append (List.Subperm.refl _))
  | get object name => exact .pure rfl (List.Subperm.refl _)
  | _ => exact .reporting _ (.pure rfl hkept)

/-- Lists of fewer than `n` tokens are read as expressions alike. -/
def FollowsExpressionsBelow (first : NodeId) (stop : Token) (n : Nat) : Prop :=
  ∀ tokens : List Token, tokens.length < n →
    (expression (Rule first) stop tokens).Follows
      Expr.shape Expr.references [] (expression Reply stop tokens)

section

variable {stop : Token} {n : Nat} (hbelow : FollowsExpressionsBelow first stop n)
include hbelow

theorem primary_follows {tokens : List Token} (hlength : tokens.length ≤ n) :
    (primary (Rule first) stop tokens).Follows
      Expr.shape Expr.references [] (primary Reply stop tokens) := by
  unfold primary
  cases tokens with
  | nil => exact .refuse
  | cons t after =>
      dsimp only
      cases hliteral : literal? t.kind with
      | some value => exact .afterToken t (.pure rfl (List.Subperm.refl _))
      | none =>
          dsimp only
          split
          · exact .afterToken t (.build (fun _ => rfl) fun _ => List.Subperm.refl _)
          · split
            · exact .afterToken t (.build (fun _ => rfl) fun _ => List.Subperm.refl _)
            · split
              · refine .afterToken t (.andThen (hbelow after hlength) fun inner rest _ => ?_)
                exact (takeSymbol_follows _ _ _ _ _).map (fun _ => rfl) fun _ => List.Subperm.refl _
              · exact .refuse

theorem entries_follow (seen : Nat) (tokens : List Token) (hlength : tokens.length < n) :
    (entries (Rule first) stop seen tokens).Follows
      (Expr.relabelAll fun _ => ()) Expr.referencesAll [] (entries Reply stop seen tokens) := by
  unfold entries
  refine .reporting _ (.andThen (hbelow tokens hlength) fun entry rest hle => ?_)
  have hlast : (Expr.referencesAll [entry]).Subperm entry.references := by
    rw [Expr.referencesAll, Expr.referencesAll, List.append_nil]
  cases rest with
  | nil => exact .pure rfl hlast
  | cons comma after =>
      dsimp only
      split
      · have hafter : after.length < tokens.length := by
          simp only [List.length_cons, Bool.toNat_true] at hle
          omega
        exact .afterToken comma
          (((entries_follow (seen + 1) after (Nat.lt_trans hafter hlength)).holding _).map
            (fun _ => rfl) fun _ => List.Subperm.refl _)
      · exact .pure rfl hlast
termination_by tokens.length

theorem arguments_follow {tokens : List Token} (hlength : tokens.length < n) :
    (arguments (Rule first) stop tokens).Follows
      (Expr.relabelAll fun _ => ()) Expr.referencesAll [] (arguments Reply stop tokens) := by
  have hentries := entries_follow hbelow 0 tokens hlength
  unfold arguments
  cases tokens with
  | nil => exact hentries.relax
  | cons t after =>
      dsimp only
      split
      · exact .pure rfl (List.Subperm.refl _)
      · exact hentries.relax

theorem callTail_follows (callee : Expr NodeId) (tokens : List Token)
    (hlength : tokens.length < n) :
    (callTail (Rule first) stop callee tokens).Follows
      Expr.shape Expr.references callee.references
      (callTail Reply stop callee.shape tokens) := by
  unfold callTail
  cases tokens with
  | nil => exact .pure rfl (List.Subperm.refl _)
  | cons t after =>
      have hafter : after.length < n := Nat.lt_of_succ_lt hlength
      dsimp only
      split
      · refine .afterToken t (.andThen ((arguments_follow hbelow hafter).holding _)
          fun es rest hrest => .andThen (takeSymbol_follows _ _ _ _ _) fun paren rest' hrest' => ?_)
        have hlt : rest'.length < after.length := by
          simp only [Bool.toNat_true, Bool.toNat_false] at hrest hrest'
          omega
        exact callTail_follows (.call callee paren es) rest' (Nat.lt_trans hlt hafter)
      · split
        · refine .afterToken t (.andThen (takeName_follows _ _ _ _) fun name rest hrest => ?_)
          have hlt : rest.length < after.length := by
            simp only [Bool.toNat_true] at hrest
            omega
          exact callTail_follows (.get callee name) rest (Nat.lt_trans hlt hafter)
        · exact .pure rfl (List.Subperm.refl _)
termination_by tokens.length
decreasing_by
  all_goals
    subst_vars
    exact Nat.lt_succ_of_lt hlt

theorem call_follows {tokens : List Token} (hlength : tokens.length ≤ n) :
    (call (Rule first) stop tokens).Follows
      Expr.shape Expr.references [] (call Reply stop tokens) := by
  unfold call
  refine .andThen (primary_follows hbelow hlength) fun callee rest hrest => ?_
  refine callTail_follows hbelow callee rest ?_
  simp only [Bool.toNat_true] at hrest
  omega

theorem unary_follows (tokens : List Token) (hlength : tokens.length ≤ n) :
    (unary (Rule first) stop tokens).Follows
      Expr.shape Expr.references [] (unary Reply stop tokens) := by
  unfold unary
  cases tokens with
  | nil => exact call_follows hbelow hlength
  | cons operator after =>
      dsimp only
      split
      · exact .afterToken operator ((unary_follows after (Nat.le_of_succ_le hlength)).map
          (fun _ => rfl) fun _ => List.Subperm.refl _)
      · exact call_follows hbelow hlength
termination_by tokens.length

omit hbelow in
theorem binaryTail_follows {level : Level NodeId} {plain : Level Unit}
    {tighter : List (Level NodeId)} {plains : List (Level Unit)} (hlevel : LevelFollows level plain)
    (htighter : ∀ tokens : List Token, tokens.length ≤ n →
      (binary (Rule first) stop tighter tokens).Follows
        Expr.shape Expr.references [] (binary Reply stop plains tokens))
    (left : Expr NodeId) (tokens : List Token) (hlength : tokens.length ≤ n) :
    (binaryTail (Rule first) stop level tighter left tokens).Follows
      Expr.shape Expr.references left.references
      (binaryTail Reply stop plain plains left.shape tokens) := by
  unfold binaryTail
  cases tokens with
  | nil => exact .pure rfl (List.Subperm.refl _)
  | cons operator after =>
      have hafter : after.length ≤ n := Nat.le_of_succ_le hlength
      dsimp only
      rw [hlevel.operators]
      split
      · refine .afterToken operator (.andThen ((htighter after hafter).holding _)
          fun right rest hrest => ?_)
        have hlt : rest.length < after.length := by
          simp only [Bool.toNat_true] at hrest
          omega
        have htail := binaryTail_follows hlevel htighter (level.join left operator right) rest
          (Nat.le_trans (Nat.le_of_lt hlt) hafter)
        rwa [hlevel.shape, hlevel.references] at htail
      · exact .pure rfl (List.Subperm.refl _)
termination_by tokens.length
decreasing_by
  subst_vars
  exact Nat.lt_succ_of_lt hlt

theorem binary_follows {levels : List (Level NodeId)} {plains : List (Level Unit)}
    (hlevels : List.Forall₂ LevelFollows levels plains) :
    ∀ tokens : List Token, tokens.length ≤ n →
      (binary (Rule first) stop levels tokens).Follows
        Expr.shape Expr.references [] (binary Reply stop plains tokens) := by
  induction hlevels with
  | nil =>
      intro tokens hlength
      unfold binary
      exact unary_follows hbelow tokens hlength
  | cons hlevel _ ih =>
      intro tokens hlength
      unfold binary
      refine .andThen (ih tokens hlength) fun left rest hrest => ?_
      refine binaryTail_follows hlevel ih left rest ?_
      simp only [Bool.toNat_true] at hrest
      omega

end

/-- By induction on the number of tokens. -/
theorem expression_follows (stop : Token) (tokens : List Token) :
    (expression (Rule first) stop tokens).Follows
      Expr.shape Expr.references [] (expression Reply stop tokens) := by
  have hbelow : FollowsExpressionsBelow first stop tokens.length := fun shorter _ =>
    expression_follows stop shorter
  unfold expression
  refine .andThen (binary_follows hbelow levels_follow tokens (Nat.le_refl _))
    fun target rest hrest => ?_
  cases rest with
  | nil => exact .pure rfl (List.Subperm.refl _)
  | cons equals after =>
      dsimp only
      split
      · refine .afterToken equals (.andThen ((hbelow after ?_).holding _) fun value rest _ => ?_)
        · simp only [List.length_cons, Bool.toNat_true] at hrest
          omega
        · exact assignment_follows equals target value rest
      · exact .pure rfl (List.Subperm.refl _)
termination_by tokens.length

end Lox.Issuing
