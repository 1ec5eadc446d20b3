import Lox.Proofs.Scoping.Tokens

namespace Lox

variable {Label : Type}

mutual

def Stmt.binders : Stmt Label → List Token
  | .expression _ | .print _ | .ret _ _ => []
  | .var name _ => [name]
  | .block body => Stmt.bindersAll body
  | .branch _ consequent none => consequent.binders
  | .branch _ consequent (some alternative) => consequent.binders ++ alternative.binders
  | .loop _ body => body.binders
  | .function declaration => declaration.binders
  | .class_ _ methods => FunctionDecl.bindersAll methods

def Stmt.bindersAll : List (Stmt Label) → List Token
  | [] => []
  | s :: ss => s.binders ++ Stmt.bindersAll ss

def FunctionDecl.binders : FunctionDecl Label → List Token
  | ⟨_, params, body⟩ => params ++ Stmt.bindersAll body

def FunctionDecl.bindersAll : List (FunctionDecl Label) → List Token
  | [] => []
  | d :: ds => d.binders ++ FunctionDecl.bindersAll ds

end

theorem Stmt.bindersAll_eq (ss : List (Stmt Label)) : bindersAll ss = ss.flatMap Stmt.binders := by
  induction ss with
  | nil => rfl
  | cons s ss ih => rw [Stmt.bindersAll, ih, List.flatMap_cons]

theorem FunctionDecl.bindersAll_eq (ds : List (FunctionDecl Label)) :
    bindersAll ds = ds.flatMap FunctionDecl.binders := by
  induction ds with
  | nil => rfl
  | cons d ds ih => rw [FunctionDecl.bindersAll, ih, List.flatMap_cons]

mutual

theorem Stmt.binders_subset : ∀ s : Stmt Label, s.binders ⊆ s.tokens
  | .expression _ | .print _ | .ret _ _ => List.nil_subset _
  | .var _ _ => by simp [Stmt.binders, Stmt.tokens]
  | .block body => Stmt.bindersAll_subset body
  | .branch _ consequent none => List.subset_append_of_subset_right _ consequent.binders_subset
  | .branch _ consequent (some alternative) => by
      have hconsequent := consequent.binders_subset
      have halternative := alternative.binders_subset
      grind [Stmt.binders, Stmt.tokens]
  | .loop _ body => List.subset_append_of_subset_right _ body.binders_subset
  | .function declaration => declaration.binders_subset
  | .class_ _ methods => List.subset_cons_of_subset _ (FunctionDecl.bindersAll_subset methods)

theorem Stmt.bindersAll_subset : ∀ ss : List (Stmt Label),
    Stmt.bindersAll ss ⊆ Stmt.tokensAll ss
  | [] => List.nil_subset _
  | s :: ss => by
      have hs := s.binders_subset
      have hss := Stmt.bindersAll_subset ss
      grind [Stmt.bindersAll, Stmt.tokensAll]

theorem FunctionDecl.binders_subset : ∀ d : FunctionDecl Label, d.binders ⊆ d.tokens
  | ⟨_, _, body⟩ => by
      have hbody := Stmt.bindersAll_subset body
      grind [FunctionDecl.binders, FunctionDecl.tokens]

theorem FunctionDecl.bindersAll_subset :
    ∀ ds : List (FunctionDecl Label), FunctionDecl.bindersAll ds ⊆ FunctionDecl.tokensAll ds
  | [] => List.nil_subset _
  | d :: ds => by
      have hd := d.binders_subset
      have hds := FunctionDecl.bindersAll_subset ds
      grind [FunctionDecl.bindersAll, FunctionDecl.tokensAll]

end

mutual

theorem Stmt.binders_numbered :
    ∀ (next : NodeId) (s : Stmt Label), (s.numbered next).1.binders = s.binders
  | _, .expression _ | _, .print _ | _, .var _ _ | _, .ret _ _ => rfl
  | next, .block body => Stmt.bindersAll_numbered next body
  | _, .branch _ consequent none => Stmt.binders_numbered _ consequent
  | _, .branch _ consequent (some alternative) => by
      simp [Stmt.numbered, Stmt.binders, Stmt.binders_numbered _ consequent,
        Stmt.binders_numbered _ alternative]
  | _, .loop _ body => Stmt.binders_numbered _ body
  | next, .function declaration => FunctionDecl.binders_numbered next declaration
  | next, .class_ _ methods => FunctionDecl.bindersAll_numbered next methods

theorem Stmt.bindersAll_numbered :
    ∀ (next : NodeId) (ss : List (Stmt Label)),
      Stmt.bindersAll (Stmt.numberedList next ss).1 = Stmt.bindersAll ss
  | _, [] => rfl
  | next, s :: ss => by
      simp [Stmt.numberedList, Stmt.bindersAll, Stmt.binders_numbered next s,
        Stmt.bindersAll_numbered _ ss]

theorem FunctionDecl.binders_numbered :
    ∀ (next : NodeId) (d : FunctionDecl Label), (d.numbered next).1.binders = d.binders
  | next, ⟨_, _, body⟩ => by
      simp [FunctionDecl.numbered, FunctionDecl.binders, Stmt.bindersAll_numbered next body]

theorem FunctionDecl.bindersAll_numbered :
    ∀ (next : NodeId) (ds : List (FunctionDecl Label)),
      FunctionDecl.bindersAll (FunctionDecl.numberedList next ds).1 = FunctionDecl.bindersAll ds
  | _, [] => rfl
  | next, d :: ds => by
      simp [FunctionDecl.numberedList, FunctionDecl.bindersAll,
        FunctionDecl.binders_numbered next d, FunctionDecl.bindersAll_numbered _ ds]

end

namespace Parsing

def StmtPhrase.binders : StmtPhrase → List Token
  | .declaration s | .statement _ s => s.binders
  | .declarations ss => Stmt.bindersAll ss
  | .function d => d.binders
  | .methods ds => FunctionDecl.bindersAll ds

variable {ts : List Token} {t : Token}

theorem ReadsAsVariable.binders {s : Stmt Unit} (h : ReadsAsVariable ts s) (ht : t ∈ s.binders) :
    t.kind = .identifier := by
  cases h with
  | bare hname | initial hname =>
      rw [List.mem_singleton.mp ht]
      exact hname

theorem ReadsAsParameters.kind_eq {names : List Token} (h : ReadsAsParameters ts names)
    (ht : t ∈ names) : t.kind = .identifier := by
  cases h with
  | none => cases ht
  | some h =>
      induction h with
      | last hname =>
          rw [List.mem_singleton.mp ht]
          exact hname
      | more hname _ _ ih =>
          rcases List.mem_cons.mp ht with rfl | ht
          · exact hname
          · exact ih ht (by grind)

theorem ReadsAsInitial.binders {initial : Option (Stmt Unit)} (h : ReadsAsInitial ts initial) :
    ∀ s ∈ initial, t ∈ s.binders → t.kind = .identifier := by
  cases h with
  | none => simp
  | var_ _ h =>
      rintro _ ⟨⟩
      exact h.binders
  | expression =>
      rintro _ ⟨⟩ ht
      cases ht

theorem mem_binders_forLoop {initial : Option (Stmt Unit)}
    {condition increment : Option (Expr Unit)} {body : Stmt Unit}
    (ht : t ∈ (forLoop initial condition increment body).binders) :
    (∃ s ∈ initial, t ∈ s.binders) ∨ t ∈ body.binders := by
  unfold forLoop at ht
  cases initial <;> cases increment <;> simp_all [Stmt.binders, Stmt.bindersAll]

theorem ReadsAsStmt.binders {p : StmtPhrase} (h : ReadsAsStmt ts p) (ht : t ∈ p.binders) :
    t.kind = .identifier := by
  induction h with
  | expression | print | ret | noDeclarations | noMethods => cases ht
  | block _ _ _ ih | branch _ _ _ _ _ ih | loop _ _ _ _ _ ih | statement _ ih | function _ _ ih
  | class_ _ _ _ _ _ ih => exact ih ht
  | branches _ _ _ _ _ _ _ ihconsequent ihalternative =>
      rcases List.mem_append.mp ht with ht | ht
      · exact ihconsequent ht
      · exact ihalternative ht
  | forLoop _ _ hinitial _ _ _ _ _ ih =>
      rcases mem_binders_forLoop ht with ⟨s, hs, ht⟩ | ht
      · exact hinitial.binders s hs ht
      · exact ih ht
  | var_ _ h => exact h.binders ht
  | declarations _ _ ihfirst ihothers | methods _ _ ihfirst ihothers =>
      rcases List.mem_append.mp ht with ht | ht
      · exact ihfirst ht
      · exact ihothers ht
  | body _ _ hparams _ _ _ _ ih =>
      rcases List.mem_append.mp ht with ht | ht
      · exact hparams.kind_eq ht
      · exact ih ht

end Parsing

end Lox
