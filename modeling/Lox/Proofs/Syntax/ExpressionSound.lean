import Lox.Proofs.Syntax.ExpressionReading

namespace Lox.Parsing

theorem reads_takeSymbol (stop : Token) (s : Symbol) (place : Place) (tokens : List Token) :
    (takeSymbol Reply stop s place tokens).Reads fun read t _ => read = [t] ∧ t.kind = .symbol s :=
  reads_take stop _ _ tokens

theorem reads_takeName (stop : Token) (named : Named) (tokens : List Token) :
    (takeName Reply stop named tokens).Reads fun read t _ => read = [t] ∧ t.kind = .identifier :=
  reads_take stop _ _ tokens

/-- Lists of fewer than `n` tokens are read rightly as expressions. -/
def ReadsExpressionsBelow (stop : Token) (n : Nat) : Prop :=
  ∀ tokens : List Token, tokens.length < n →
    (expression Reply stop tokens).Reads fun read e _ => ReadsAs read (.expression e)

section

variable {stop : Token} {n : Nat} (hbelow : ReadsExpressionsBelow stop n)
include hbelow

theorem primary_reads {tokens : List Token} (hlength : tokens.length ≤ n) :
    (primary Reply stop tokens).Reads fun read e _ => ReadsAs read (.primary e) := by
  unfold primary
  cases tokens with
  | nil => exact Reply.reads_refuse
  | cons t after =>
      dsimp only
      split
      · rename_i value hvalue
        exact .afterToken (Reply.reads_pure (.literal hvalue))
      · split
        · rename_i hname
          exact .afterToken (Reply.reads_pure (.name hname))
        · split
          · rename_i hthis
            exact .afterToken (Reply.reads_pure (.this hthis))
          · split
            · rename_i hparen
              refine .afterToken (.andThen (hbelow after hlength) ?_)
              intro inner read rest _ _ hinner
              refine .map (reads_takeSymbol stop .rightParen _ rest) ?_
              rintro _ close _ ⟨rfl, hclose⟩
              exact .grouping hparen hinner hclose
            · exact Reply.reads_refuse

theorem entries_reads (seen : Nat) (tokens : List Token) (hlength : tokens.length < n) :
    (entries Reply stop seen tokens).Reads fun read es _ =>
      ReadsAs read (.entries es) ∧ seen + es.length ≤ entryLimit := by
  unfold entries
  refine .reporting fun hexcess => ?_
  have hseen : seen < entryLimit := excess_eq_nil_iff.mp hexcess
  refine .andThen (hbelow tokens hlength) ?_
  intro entry read rest hle _ hentry
  cases rest with
  | nil =>
      refine Reply.reads_pure ⟨?_, hseen⟩
      rw [List.append_nil]
      exact .lastEntry hentry
  | cons comma after =>
      dsimp only
      split
      · rename_i hcomma
        have hafter : after.length < tokens.length := by
          simp only [List.length_cons, Bool.toNat_true] at hle
          omega
        refine .afterToken (.map (entries_reads (seen + 1) after (Nat.lt_trans hafter hlength)) ?_)
        rintro more es _ ⟨hes, hcount⟩
        refine ⟨.entry hentry hcomma hes, ?_⟩
        rw [List.length_cons]
        omega
      · refine Reply.reads_pure ⟨?_, hseen⟩
        rw [List.append_nil]
        exact .lastEntry hentry
termination_by tokens.length

theorem arguments_reads {tokens : List Token} (hlength : tokens.length < n) :
    (arguments Reply stop tokens).Reads fun read es _ => ReadsAs read (.arguments es) := by
  have hentries : (entries Reply stop 0 tokens).Reads fun read es _ =>
      ReadsAs read (.arguments es) := by
    refine (entries_reads hbelow 0 tokens hlength).mono ?_
    rintro read es _ ⟨hes, hcount⟩
    exact .arguments hes (by simpa using hcount)
  unfold arguments
  cases tokens with
  | nil => exact hentries.relax
  | cons t after =>
      dsimp only
      split
      · exact Reply.reads_pure .noArguments
      · exact hentries.relax

theorem callTail_reads {before : List Token} {callee : Expr Unit}
    (hcallee : ReadsAs before (.call callee)) (tokens : List Token) (hlength : tokens.length < n) :
    (callTail Reply stop callee tokens).Reads fun read e _ =>
      ReadsAs (before ++ read) (.call e) := by
  unfold callTail
  cases tokens with
  | nil => exact Reply.reads_pure (by rwa [List.append_nil])
  | cons t after =>
      have hafter : after.length < n := Nat.lt_of_succ_lt hlength
      dsimp only
      split
      · rename_i hparen
        refine .afterToken (.andThen (arguments_reads hbelow hafter) ?_)
        intro es read rest hrest _ hes
        refine .andThen (reads_takeSymbol stop .rightParen _ rest) ?_
        rintro close _ rest' hrest' _ ⟨rfl, hclose⟩
        have hlt : rest'.length < after.length := by
          simp only [Bool.toNat_true, Bool.toNat_false] at hrest hrest'
          omega
        refine (callTail_reads (.call hcallee hparen hes hclose) rest'
          (Nat.lt_trans hlt hafter)).mono ?_
        intro more e _ hread
        simpa using hread
      · split
        · rename_i hdot
          refine .afterToken (.andThen (reads_takeName stop _ after) ?_)
          rintro name _ rest hrest _ ⟨rfl, hname⟩
          have hlt : rest.length < after.length := by
            simp only [Bool.toNat_true] at hrest
            omega
          refine (callTail_reads (.get hcallee hdot hname) rest (Nat.lt_trans hlt hafter)).mono ?_
          intro more e _ hread
          simpa using hread
        · exact Reply.reads_pure (by rwa [List.append_nil])
termination_by tokens.length

theorem call_reads {tokens : List Token} (hlength : tokens.length ≤ n) :
    (call Reply stop tokens).Reads fun read e _ => ReadsAs read (.call e) := by
  unfold call
  refine .andThen (primary_reads hbelow hlength) ?_
  intro callee read rest hrest _ hcallee
  refine callTail_reads hbelow (.primary hcallee) rest ?_
  simp only [Bool.toNat_true] at hrest
  omega

theorem unary_reads (tokens : List Token) (hlength : tokens.length ≤ n) :
    (unary Reply stop tokens).Reads fun read e _ => ReadsAs read (.unary e) := by
  unfold unary
  cases tokens with
  | nil => exact (call_reads hbelow hlength).mono fun _ _ _ => .operand
  | cons operator after =>
      dsimp only
      split
      · rename_i hoperator
        refine .afterToken (.map (unary_reads after (Nat.le_of_succ_le hlength)) ?_)
        intro read e _ hoperand
        exact .unary hoperator hoperand
      · exact (call_reads hbelow hlength).mono fun _ _ _ => .operand
termination_by tokens.length

omit hbelow in
theorem binaryTail_reads {level : Level Unit} {tighter : List (Level Unit)}
    (hoperand : ∀ tokens : List Token, tokens.length ≤ n →
      (binary Reply stop tighter tokens).Reads fun read e _ => ReadsAs read (.binary tighter e))
    {before : List Token} {left : Expr Unit}
    (hleft : ReadsAs before (.binary (level :: tighter) left)) (tokens : List Token)
    (hlength : tokens.length < n) :
    (binaryTail Reply stop level tighter left tokens).Reads fun read e _ =>
      ReadsAs (before ++ read) (.binary (level :: tighter) e) := by
  unfold binaryTail
  cases tokens with
  | nil => exact Reply.reads_pure (by rwa [List.append_nil])
  | cons operator after =>
      have hafter : after.length < n := Nat.lt_of_succ_lt hlength
      dsimp only
      split
      · rename_i hoperator
        refine .afterToken (.andThen (hoperand after (Nat.le_of_lt hafter)) ?_)
        intro right read rest hrest _ hright
        have hlt : rest.length < after.length := by
          simp only [Bool.toNat_true] at hrest
          omega
        refine (binaryTail_reads hoperand (.join hleft hoperator hright) rest
          (Nat.lt_trans hlt hafter)).mono ?_
        intro more e _ hread
        simpa using hread
      · exact Reply.reads_pure (by rwa [List.append_nil])
termination_by tokens.length

theorem binary_reads (levels : List (Level Unit)) (tokens : List Token)
    (hlength : tokens.length ≤ n) :
    (binary Reply stop levels tokens).Reads fun read e _ => ReadsAs read (.binary levels e) := by
  induction levels generalizing tokens with
  | nil =>
      rw [binary]
      exact (unary_reads hbelow tokens hlength).mono fun _ _ _ => .tightest
  | cons level tighter ih =>
      rw [binary]
      refine .andThen (ih tokens hlength) ?_
      intro left read rest hrest _ hleft
      refine binaryTail_reads ih (.tighter hleft) rest ?_
      simp only [Bool.toNat_true] at hrest
      omega

end

theorem assignment_reads {equals : Token} {target value : Expr Unit} (tokens : List Token) :
    (assignment Reply equals target value tokens).Reads fun read e _ =>
      read = [] ∧ assigned? target value = some e := by
  unfold assignment
  split
  · exact Reply.reads_pure ⟨rfl, rfl⟩
  · exact Reply.reads_pure ⟨rfl, rfl⟩
  · exact .reporting fun h => absurd h (List.cons_ne_nil _ _)

theorem expression_reads (stop : Token) (tokens : List Token) :
    (expression Reply stop tokens).Reads fun read e _ => ReadsAs read (.expression e) := by
  have hbelow : ReadsExpressionsBelow stop tokens.length := fun shorter _ =>
    expression_reads stop shorter
  rw [expression]
  refine .andThen (binary_reads hbelow levels tokens (Nat.le_refl _)) ?_
  intro target read rest hrest _ htarget
  cases rest with
  | nil => exact Reply.reads_pure (by simpa using .plain htarget)
  | cons equals after =>
      dsimp only
      split
      · rename_i hequals
        have hafter : after.length < tokens.length := by
          simp only [List.length_cons, Bool.toNat_true] at hrest
          omega
        refine .afterToken (.andThen (hbelow after hafter) ?_)
        intro value more rest' _ _ hvalue
        refine (assignment_reads rest').mono ?_
        rintro _ e _ ⟨rfl, he⟩
        simpa using .assign htarget hequals hvalue he
      · exact Reply.reads_pure (by simpa using .plain htarget)
termination_by tokens.length

end Lox.Parsing
