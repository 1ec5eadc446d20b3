import Lox.Issuing.Program
import Lox.Proofs.Identities.Readers
import Lox.Proofs.Identities.Statements

namespace Lox

open Parsing (Parsed Reply declaration expression)

theorem Chosen.of_subperm {first : NodeId} {built references : List (Reference NodeId)}
    (hbuilt : Consecutive first built) (h : references.Subperm built) :
    Chosen built references := by
  refine ⟨h.subset, ?_⟩
  obtain ⟨chosen, hperm, hsublist⟩ := h
  have hnodup := (hsublist.map Reference.label).nodup hbuilt.chosen.nodup
  exact ((hperm.map Reference.label).nodup_iff).mp hnodup

namespace Issuing

variable {first : NodeId}

theorem declarationsAfter_follows (stop : Token) (statements : Array (Stmt NodeId))
    (plain : Array (Stmt Unit)) (h : Stmt.shapeAll statements.toList = plain.toList)
    (reports : Array Diagnostic) (tokens : List Token) (issuer : Issuer first) :
    let result := declarationsAfter stop statements reports tokens issuer
    let read := Parsing.declarationsAfter stop plain reports tokens
    Stmt.shapeAll result.1.value = read.value ∧ result.1.reports = read.reports ∧
      ∃ new, result.2.built = issuer.built ++ new ∧
        (Stmt.referencesAll result.1.value).Subperm
          (Stmt.referencesAll statements.toList ++ new) := by
  dsimp only
  cases tokens with
  | nil =>
      rw [declarationsAfter, Parsing.declarationsAfter]
      exact ⟨h, rfl, [], (List.append_nil _).symm, by rw [List.append_nil]⟩
  | cons t rest =>
      have hfirst : Recovers (declaration (Rule first) stop t rest)
          (declaration Reply stop t rest) :=
        declaration_recovers stop t rest
      obtain ⟨new, hnew, hchosen⟩ := hfirst.built issuer
      have hstatement := hfirst.statement issuer
      have hrest := hfirst.rest issuer
      have hreports := hfirst.reports issuer
      rw [declarationsAfter, Parsing.declarationsAfter]
      generalize declaration (Rule first) stop t rest issuer = d
        at hnew hchosen hstatement hrest hreports
      generalize declaration Reply stop t rest = d' at hstatement hrest hreports
      obtain ⟨⟨statement, after, reports₁, progress⟩, issuer'⟩ := d
      obtain ⟨statement', after', reports', progress'⟩ := d'
      dsimp only at hnew hchosen hstatement hrest hreports ⊢
      subst hstatement hrest hreports
      have hmore : Stmt.shapeAll (statements ++ statement.toList).toList =
          (plain ++ (statement.map Stmt.shape).toList).toList := by
        rw [Array.toList_appendList, Array.toList_appendList, Stmt.shapeAll_append, h,
          Stmt.shapeAll_toList]
      obtain ⟨hvalue, hreports, more, hbuilt, hothers⟩ :=
        declarationsAfter_follows stop _ _ hmore (reports ++ reports₁) after issuer'
      refine ⟨hvalue, hreports, new ++ more, ?_, hothers.trans ?_⟩
      · rw [← List.append_assoc, ← hnew]
        exact hbuilt
      · rw [Array.toList_appendList, Stmt.referencesAll_append, List.append_assoc]
        exact (List.Subperm.refl _).append (hchosen.append (List.Subperm.refl more))
termination_by tokens.length
decreasing_by assumption

theorem program_follows (tokens : List Token) (issuer : Issuer first) :
    let result := program tokens issuer
    let read := Parsing.program tokens
    Stmt.shapeAll result.1.value = read.value ∧ result.1.reports = read.reports ∧
      ∃ new, result.2.built = issuer.built ++ new ∧
        (Stmt.referencesAll result.1.value).Subperm new :=
  declarationsAfter_follows _ #[] #[] rfl #[] _ issuer

theorem singleExpression_follows (tokens : List Token) (issuer : Issuer first) :
    let result := singleExpression tokens issuer
    let read := Parsing.singleExpression tokens
    Expr.shapeOption result.1.value = read.value ∧ result.1.reports = read.reports ∧
      ∃ new, result.2.built = issuer.built ++ new ∧
        (Expr.referencesOption result.1.value).Subperm new := by
  have hfollows : (expression (Rule first) (Parsing.stop tokens) (Parsing.contents tokens)).Follows
      Expr.shape Expr.references [] _ :=
    expression_follows _ _
  have herased := hfollows.erased issuer
  obtain ⟨new, hnew, hvalue⟩ := hfollows.built issuer
  dsimp only
  unfold singleExpression Parsing.singleExpression
  rw [← herased]
  generalize expression (Rule first) (Parsing.stop tokens) (Parsing.contents tokens) issuer = d
    at hnew hvalue
  obtain ⟨⟨outcome, hfits⟩, issuer'⟩ := d
  cases outcome with
  | refused fault rest reports => exact ⟨rfl, rfl, new, hnew, List.nil_subperm⟩
  | accepted e rest reports =>
      have he := hvalue e rest reports rfl
      cases rest <;> exact ⟨rfl, rfl, new, hnew, he⟩

theorem subperm_readProgram (first : NodeId) (source : String) :
    (Stmt.referencesAll (readProgram first source).1.value).Subperm
      (readProgram first source).2.built := by
  obtain ⟨-, -, new, hnew, hchosen⟩ :=
    program_follows ((Scan.items source).filterMap Scan.Item.token?) (.new first)
  have hbuilt : (readProgram first source).2.built = new := hnew
  rw [hbuilt]
  exact hchosen

/-- The name before `=` is a node that no tree has, and so are those of a statement at fault. -/
example : (readProgram 7 "a = b; c(;").2.built.map Reference.label = [7, 8, 9, 10] ∧
    (Stmt.referencesAll (readProgram 7 "a = b; c(;").1.value).map Reference.label = [9, 8] := by
  cbv

theorem subperm_readExpression (first : NodeId) (source : String) :
    (Expr.referencesOption (readExpression first source).1.value).Subperm
      (readExpression first source).2.built := by
  obtain ⟨-, -, new, hnew, hchosen⟩ :=
    singleExpression_follows ((Scan.items source).filterMap Scan.Item.token?) (.new first)
  have hbuilt : (readExpression first source).2.built = new := hnew
  rw [hbuilt]
  exact hchosen

end Issuing

/-- The reader that gives identities while it reads. -/
def Reader.issuing : Reader where
  program first source :=
    let read := Issuing.readProgram first source
    ⟨read.1.value, read.1.reports, read.2.built⟩
  expression first source :=
    let read := Issuing.readExpression first source
    ⟨read.1.value, read.1.reports, read.2.built⟩
  built_program first source := (Issuing.readProgram first source).2.consecutive
  built_expression first source := (Issuing.readExpression first source).2.consecutive
  reports_program first _ := congrArg (_ ++ ·) (Issuing.program_follows _ (.new first)).2.1
  reports_expression first _ :=
    congrArg (_ ++ ·) (Issuing.singleExpression_follows _ (.new first)).2.1
  shape_program first _ _ := (Issuing.program_follows _ (.new first)).1
  shape_expression first _ _ := (Issuing.singleExpression_follows _ (.new first)).1
  chosen_program first source _ :=
    .of_subperm (Issuing.readProgram first source).2.consecutive
      (Issuing.subperm_readProgram first source)
  chosen_expression first source _ e he := by
    have hsubperm := Issuing.subperm_readExpression first source
    rw [show (Issuing.readExpression first source).1.value = some e from he] at hsubperm
    exact .of_subperm (Issuing.readExpression first source).2.consecutive hsubperm

end Lox
