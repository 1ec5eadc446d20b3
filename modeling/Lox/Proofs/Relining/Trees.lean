import Lox.Proofs.Likeness.Numbering
import Lox.Proofs.Likeness.Respelling
import Lox.Proofs.Relabelling.Trees
import Lox.Proofs.Scoping.Orderly
import Lox.Proofs.Syntax.Acceptance
import Lox.Proofs.Syntax.Lines

namespace Lox

open Parsing

variable {α β : Type}

theorem eq_map_of_forall₂ {f : α → α} {xs ys : List α}
    (h : List.Forall₂ (fun x y => y = f x) xs ys) : ys = xs.map f := by
  induction h with
  | nil => rfl
  | cons hx _ ih => rw [hx, ih, List.map_cons]

theorem keepsKinds_map {f : Token → Token} (hf : ∀ t, (f t).kind = t.kind) :
    KeepsKinds fun t t' => t' = f t :=
  ⟨fun h => h ▸ hf _, fun t => ⟨f t, rfl⟩⟩

theorem Stmt.alikeAll_everywhere (f : Token → Token) {program : List (Stmt NodeId)}
    (horderly : Stmt.orderlyAll program) :
    Stmt.AlikeAll (.ofTokens fun t t' => t' = f t) [] program
      (Stmt.respellAll (.everywhere f) 0 program) := by
  have hallows : Likeness.Allows (.ofTokens fun t t' => t' = f t) (.everywhere f)
      (fun d => List.replicate d false) 0 ⟨fun _ _ => True, fun _ => True, fun _ => True⟩ :=
    ⟨fun _ => rfl, fun _ _ => rfl, fun _ _ _ _ _ => rfl, fun _ _ _ => rfl, fun _ _ _ _ => rfl⟩
  exact Stmt.alikeAll_respell hallows (Γ := []) (d := 0) rfl program
    ⟨fun _ _ => trivial, fun _ _ => trivial⟩ horderly fun _ _ => rfl

@[simp] theorem Respelling.everywhere_token (f : Token → Token) :
    (everywhere f : Respelling α).token = f := rfl

section

variable (f : Token → Token) (g : α → β)

/-! ### Trees that are relabelled as well -/

mutual

theorem Expr.relabel_respell (d : Nat) : ∀ e : Expr α,
    (e.respell (.everywhere f) d).relabel g = (e.relabel g).respell (.everywhere f) d
  | .literal _ | .var _ _ | .this _ _ => rfl
  | .grouping inner => congrArg _ (inner.relabel_respell d)
  | .unary _ inner => congrArg _ (inner.relabel_respell d)
  | .get inner _ => by
      simp only [Expr.respell, Expr.relabel, inner.relabel_respell d, Respelling.everywhere_token]
  | .binary left _ right | .logical left _ right | .set left _ right => by
      simp only [Expr.respell, Expr.relabel, left.relabel_respell d, right.relabel_respell d,
        Respelling.everywhere_token]
  | .assign _ _ value => congrArg _ (value.relabel_respell d)
  | .call callee _ arguments => by
      simp only [Expr.respell, Expr.relabel, callee.relabel_respell d,
        Expr.relabelAll_respellAll d arguments, Respelling.everywhere_token]

theorem Expr.relabelAll_respellAll (d : Nat) : ∀ es : List (Expr α),
    Expr.relabelAll g (Expr.respellAll (.everywhere f) d es) =
      Expr.respellAll (.everywhere f) d (Expr.relabelAll g es)
  | [] => rfl
  | e :: es => by
      simp only [Expr.respellAll, Expr.relabelAll, e.relabel_respell d,
        Expr.relabelAll_respellAll d es]

end

theorem Expr.relabelOption_respellOption (d : Nat) (e : Option (Expr α)) :
    Expr.relabelOption g (Expr.respellOption (.everywhere f) d e) =
      Expr.respellOption (.everywhere f) d (Expr.relabelOption g e) := by
  cases e with
  | none => rfl
  | some e => exact congrArg some (e.relabel_respell f g d)

mutual

theorem Stmt.relabel_respell : ∀ (d : Nat) (s : Stmt α),
    (s.respell (.everywhere f) d).relabel g = (s.relabel g).respell (.everywhere f) d
  | d, .expression e | d, .print e => congrArg _ (e.relabel_respell f g d)
  | d, .var _ e | d, .ret _ e => congrArg _ (Expr.relabelOption_respellOption f g d e)
  | d, .block body => congrArg _ (Stmt.relabelAll_respellAll (d + 1) body)
  | d, .branch condition consequent none => by
      simp only [Stmt.respell, Stmt.relabel, condition.relabel_respell f g d,
        Stmt.relabel_respell d consequent]
  | d, .branch condition consequent (some alternative) => by
      simp only [Stmt.respell, Stmt.relabel, condition.relabel_respell f g d,
        Stmt.relabel_respell d consequent, Stmt.relabel_respell d alternative]
  | d, .loop condition body => by
      simp only [Stmt.respell, Stmt.relabel, condition.relabel_respell f g d,
        Stmt.relabel_respell d body]
  | d, .function declaration => congrArg _ (FunctionDecl.relabel_respell (d + 1) declaration)
  | d, .class_ _ methods => congrArg _ (FunctionDecl.relabelAll_respellAll (d + 2) methods)

theorem Stmt.relabelAll_respellAll : ∀ (d : Nat) (ss : List (Stmt α)),
    Stmt.relabelAll g (Stmt.respellAll (.everywhere f) d ss) =
      Stmt.respellAll (.everywhere f) d (Stmt.relabelAll g ss)
  | _, [] => rfl
  | d, s :: ss => by
      simp only [Stmt.respellAll, Stmt.relabelAll, Stmt.relabel_respell d s,
        Stmt.relabelAll_respellAll d ss]

theorem FunctionDecl.relabel_respell : ∀ (d : Nat) (m : FunctionDecl α),
    (m.respell (.everywhere f) d).relabel g = (m.relabel g).respell (.everywhere f) d
  | d, ⟨_, _, body⟩ => by
      simp only [FunctionDecl.respell, FunctionDecl.relabel, Stmt.relabelAll_respellAll d body]
      rfl

theorem FunctionDecl.relabelAll_respellAll : ∀ (d : Nat) (ms : List (FunctionDecl α)),
    FunctionDecl.relabelAll g (FunctionDecl.respellAll (.everywhere f) d ms) =
      FunctionDecl.respellAll (.everywhere f) d (FunctionDecl.relabelAll g ms)
  | _, [] => rfl
  | d, m :: ms => by
      simp only [FunctionDecl.respellAll, FunctionDecl.relabelAll, FunctionDecl.relabel_respell d m,
        FunctionDecl.relabelAll_respellAll d ms]

end

/-! ### Labels -/

mutual

theorem Expr.labels_respell (d : Nat) : ∀ e : Expr α,
    (e.respell (.everywhere f) d).references.map Reference.label =
      e.references.map Reference.label
  | .literal _ | .var _ _ | .this _ _ => rfl
  | .grouping inner | .unary _ inner | .get inner _ => inner.labels_respell d
  | .binary left _ right | .logical left _ right | .set left _ right => by
      simp only [Expr.respell, Expr.references, List.map_append, left.labels_respell d,
        right.labels_respell d]
  | .assign _ _ value => by
      simp only [Expr.respell, Expr.references, List.map_cons, value.labels_respell d]
  | .call callee _ arguments => by
      simp only [Expr.respell, Expr.references, List.map_append, callee.labels_respell d,
        Expr.labels_respellAll d arguments]

theorem Expr.labels_respellAll (d : Nat) : ∀ es : List (Expr α),
    (Expr.referencesAll (Expr.respellAll (.everywhere f) d es)).map Reference.label =
      (Expr.referencesAll es).map Reference.label
  | [] => rfl
  | e :: es => by
      simp only [Expr.respellAll, Expr.referencesAll, List.map_append, e.labels_respell d,
        Expr.labels_respellAll d es]

end

theorem Expr.labels_respellOption (d : Nat) (e : Option (Expr α)) :
    (Expr.referencesOption (Expr.respellOption (.everywhere f) d e)).map Reference.label =
      (Expr.referencesOption e).map Reference.label := by
  cases e with
  | none => rfl
  | some e => exact e.labels_respell f d

mutual

theorem Stmt.labels_respell : ∀ (d : Nat) (s : Stmt α),
    (s.respell (.everywhere f) d).references.map Reference.label =
      s.references.map Reference.label
  | d, .expression e | d, .print e => e.labels_respell f d
  | d, .var _ e | d, .ret _ e => Expr.labels_respellOption f d e
  | d, .block body => Stmt.labels_respellAll (d + 1) body
  | d, .branch condition consequent none => by
      simp only [Stmt.respell, Stmt.references, List.map_append, condition.labels_respell f d,
        Stmt.labels_respell d consequent]
  | d, .branch condition consequent (some alternative) => by
      simp only [Stmt.respell, Stmt.references, List.map_append, condition.labels_respell f d,
        Stmt.labels_respell d consequent, Stmt.labels_respell d alternative]
  | d, .loop condition body => by
      simp only [Stmt.respell, Stmt.references, List.map_append, condition.labels_respell f d,
        Stmt.labels_respell d body]
  | d, .function declaration => FunctionDecl.labels_respell (d + 1) declaration
  | d, .class_ _ methods => FunctionDecl.labels_respellAll (d + 2) methods

theorem Stmt.labels_respellAll : ∀ (d : Nat) (ss : List (Stmt α)),
    (Stmt.referencesAll (Stmt.respellAll (.everywhere f) d ss)).map Reference.label =
      (Stmt.referencesAll ss).map Reference.label
  | _, [] => rfl
  | d, s :: ss => by
      simp only [Stmt.respellAll, Stmt.referencesAll, List.map_append, Stmt.labels_respell d s,
        Stmt.labels_respellAll d ss]

theorem FunctionDecl.labels_respell : ∀ (d : Nat) (m : FunctionDecl α),
    (m.respell (.everywhere f) d).references.map Reference.label =
      m.references.map Reference.label
  | d, ⟨_, _, body⟩ => Stmt.labels_respellAll d body

theorem FunctionDecl.labels_respellAll : ∀ (d : Nat) (ms : List (FunctionDecl α)),
    (FunctionDecl.referencesAll (FunctionDecl.respellAll (.everywhere f) d ms)).map
        Reference.label = (FunctionDecl.referencesAll ms).map Reference.label
  | _, [] => rfl
  | d, m :: ms => by
      simp only [FunctionDecl.respellAll, FunctionDecl.referencesAll, List.map_append,
        FunctionDecl.labels_respell d m, FunctionDecl.labels_respellAll d ms]

end

end

/-- The program without its lines. -/
def Stmt.unlinedAll (program : List (Stmt α)) : List (Stmt α) :=
  Stmt.respellAll (.everywhere Token.unlined) 0 program

theorem Stmt.shapeAll_unlinedAll (program : List (Stmt α)) :
    Stmt.shapeAll (Stmt.unlinedAll program) = Stmt.unlinedAll (Stmt.shapeAll program) :=
  Stmt.relabelAll_respellAll _ _ 0 program

namespace Parsing

variable {ts tokens tokens' : List Token} {ss ss' : List (Stmt Unit)}

/-- Without their lines the tokens stand for the program without its lines. -/
theorem ReadsAsStmt.unlined (h : ReadsAsStmt ts (.declarations ss)) :
    ReadsAsStmt (ts.map Token.unlined) (.declarations (Stmt.unlinedAll ss)) := by
  have hkinds : KeepsKinds fun t t' => t' = t.unlined := keepsKinds_map fun _ => rfl
  have horderly := (Stmt.orderlyAll_numbered 0 ss).trans h.orderly
  obtain ⟨tree, htree, hnumbered⟩ :=
    Stmt.of_alike_numberedList 0 ss (Stmt.alikeAll_everywhere Token.unlined horderly)
  obtain ⟨us, hus, hts⟩ := h.of_alike hkinds (.declarations htree)
  have hshape := congrArg (fun p => Stmt.shapeAll p.1) hnumbered
  rw [Stmt.shapeAll_numbered] at hshape
  change tree = Stmt.shapeAll (Stmt.unlinedAll _) at hshape
  rw [Stmt.shapeAll_unlinedAll, Stmt.shapeAll_numbered] at hshape
  rwa [← eq_map_of_forall₂ hts, ← hshape]

/-- Tokens stand for one program at most. -/
theorem ReadsAsStmt.declarations_unique (h : ReadsAsStmt ts (.declarations ss))
    (h' : ReadsAsStmt ts (.declarations ss')) : ss = ss' := by
  have hnone : NoElse [] := by simp [NoElse]
  have haccepts := (accepts_of_readsAsStmt (.endOfInput 1) h).2 #[] #[] [] hnone
  have haccepts' := (accepts_of_readsAsStmt (.endOfInput 1) h').2 #[] #[] [] hnone
  simpa [declarationsAfter] using congrArg Parsed.value (haccepts.symm.trans haccepts')

theorem contents_unlined (tokens : List Token) :
    contents (tokens.map Token.unlined) = (contents tokens).map Token.unlined :=
  List.takeWhile_map

/-- A program on other lines is read without a report if it was, and as the same but for its
lines. -/
theorem program_relined (h : (program tokens).reports = [])
    (htokens : tokens'.map Token.unlined = tokens.map Token.unlined) :
    (program tokens').reports = [] ∧
      Stmt.unlinedAll (program tokens').value = Stmt.unlinedAll (program tokens).value := by
  have hcontents := congrArg contents htokens
  rw [contents_unlined, contents_unlined] at hcontents
  have hkinds : (contents tokens').map Token.kind = (contents tokens).map Token.kind := by
    have hmap := congrArg (List.map Token.kind) hcontents
    rwa [List.map_map, List.map_map] at hmap
  have h' : (program tokens').reports = [] := by
    rw [(reports_eq_nil_iff_derives _).1] at h ⊢
    rwa [hkinds]
  refine ⟨h', ?_⟩
  have hreads := program_eq_iff.mp (show program tokens = ⟨_, []⟩ by rw [← h])
  have hreads' := program_eq_iff.mp (show program tokens' = ⟨_, []⟩ by rw [← h'])
  have hunlined := hreads'.unlined
  rw [hcontents] at hunlined
  exact hunlined.declarations_unique hreads.unlined

end Parsing

end Lox
